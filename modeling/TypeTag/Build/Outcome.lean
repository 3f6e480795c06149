import TypeTag.Build.Event

namespace TypeTag

inductive BuildError where
  | nameless (type : Ty)
  | improperQualifier (type : Ty) (built : Descriptor)
  | improperMember (type : Ty) (member : String) (built : Descriptor)

namespace BuildError

def type : BuildError → Ty
  | nameless t | improperQualifier t _ | improperMember t _ _ => t

def detail : BuildError → String
  | nameless _ => "type has neither a symbol nor a literal value"
  | improperQualifier _ d => "prefix is not a proper type: " ++ d.longName
  | improperMember _ m d => "member \x60" ++ m ++ "\x60 is not a proper type: " ++ d.longName

def message (e : BuildError) : String :=
  "inconsistent type " ++ e.type.text ++ ": " ++ e.detail

end BuildError

/-- A computation that reports events and ends with a value or an error, unless its bound on the
number of steps is too small, in which case nothing is known about it. -/
inductive Build (α : Type) where
  | exhausted
  | done (log : List Event) (result : Except BuildError α)

namespace Build

variable {α β : Type}

def pure (a : α) : Build α :=
  done [] (.ok a)

def bind (b : Build α) (f : α → Build β) : Build β :=
  match b with
  | exhausted => exhausted
  | done log (.error e) => done log (.error e)
  | done log (.ok a) =>
    match f a with
    | exhausted => exhausted
    | done log' r => done (log ++ log') r

instance : Monad Build where
  pure := pure
  bind := bind

theorem pure_bind (a : α) (f : α → Build β) : bind (pure a) f = f a := by
  cases h : f a <;> simp [bind, pure, h]

theorem bind_pure (b : Build α) : bind b pure = b := by
  rcases b with _ | ⟨log, _ | a⟩ <;> simp [bind, pure]

theorem bind_assoc {γ : Type} (b : Build α) (f : α → Build β) (g : β → Build γ) :
    bind (bind b f) g = bind b fun a ↦ bind (f a) g := by
  rcases b with _ | ⟨log, _ | a⟩ <;> simp only [bind]
  rcases f a with _ | ⟨log', _ | c⟩ <;> simp only
  cases g c <;> simp

instance : LawfulMonad Build :=
  .mk' Build bind_pure pure_bind bind_assoc

instance : Inhabited (Build α) := ⟨exhausted⟩

def fail (e : BuildError) : Build α :=
  done [] (.error e)

def emit (e : Event) : Build Unit :=
  done [e] (.ok ())

/-- A query that found nothing within its bound exhausts the build. -/
def ofOption : Option α → Build α
  | none => exhausted
  | some a => pure a

instance : MonadLift Option Build := ⟨ofOption⟩

def value? : Build α → Option α
  | done _ (.ok a) => some a
  | _ => none

end Build

end TypeTag
