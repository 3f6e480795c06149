import TypeTag.Descriptor.Mention
import TypeTag.Descriptor.Render
import TypeTag.Ty.Text

namespace TypeTag

inductive Event where
  | describing (type : Ty) (level : Nat) (forceLambda : Bool)
  | cut (type : Ty)
  | unusedParams (type : Ty) (lambda : Lambda)
  | boundsSuppressed (lower upper : Ty)
  /-- A base does not use every parameter of the type function it was described as. -/
  | collapsed (body : Descriptor)
  | stableBase (child parent : Descriptor)
  | cacheHit (key : Ty)
  | cacheMiss (key : Ty)
  | tagBuilt (reference : Descriptor) (components stableBases unapplied : Nat)

inductive Severity where
  | warn
  | debug
  | trace
deriving DecidableEq

namespace Severity

def label : Severity → String
  | warn => "WARN"
  | debug => "DEBUG"
  | trace => "TRACE"

def shows (l s : Severity) : Bool :=
  match l, s with
  | trace, _ | debug, debug | _, warn => true
  | _, _ => false

end Severity

namespace Event

def severity : Event → Severity
  | unusedParams .. => .warn
  | boundsSuppressed .. | collapsed _ | tagBuilt .. => .debug
  | describing .. | cut _ | stableBase .. | cacheHit _ | cacheMiss _ => .trace

def target : Event → String
  | describing .. | cut _ | unusedParams .. => "lighttag_builder::builder"
  | boundsSuppressed .. => "lighttag_builder::unpack"
  | collapsed _ | stableBase .. => "lighttag_builder::inheritance"
  | cacheHit _ | cacheMiss _ => "lighttag_builder::cache"
  | tagBuilt .. => "lighttag_builder::tag_builder"

def fields : Event → List (String × String)
  | describing t l f =>
    [("message", "make_ref"), ("ty", t.text), ("level", toString l),
      ("force_lambda", if f then "true" else "false")]
  | cut t => [("message", "recursive occurrence cut"), ("ty", t.text)]
  | unusedParams t l =>
    [("message", "lambda parameters are not referenced by its body"), ("ty", t.text),
      ("lambda", l.toDescriptor.longName), ("unused", Text.bracket (l.unused.map Text.quote))]
  | boundsSuppressed l u =>
    [("message", "self-referential bounds suppressed"), ("lower", l.text), ("upper", u.text)]
  | collapsed b =>
    [("message", "stable base does not use every parameter; collapsed"), ("body", b.longName)]
  | stableBase c p =>
    [("message", "stable base"), ("child", c.longName), ("parent", p.longName)]
  | cacheHit k => [("message", "reference cache hit"), ("key", k.text)]
  | cacheMiss k => [("message", "reference cache miss"), ("key", k.text)]
  | tagBuilt r c s n =>
    [("message", "built tag"), ("reference", r.longName), ("components", toString c),
      ("stable_bases", toString s), ("unapplied", toString n)]

end Event

end TypeTag
