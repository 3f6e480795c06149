import TypeTag.Proofs.Steps.Keeps

namespace TypeTag

namespace Build

open Stepped

variable {α β : Type}

/-- How a build ends: not at all, with an error, or with a value. -/
def outcome : Build α → Option (Option α)
  | exhausted => none
  | done _ (.error _) => some none
  | done _ (.ok a) => some (some a)

theorem outcome_eq_some_some_iff {b : Build α} {a : α} :
    b.outcome = some (some a) ↔ b.value? = some a := by
  rcases b with _ | ⟨log, _ | a⟩ <;> simp [outcome, value?]

theorem value?_bind_iff {b : Build α} {f : α → Build β} {c : β} :
    (b >>= f).value? = some c ↔ ∃ a, b.value? = some a ∧ (f a).value? = some c := by
  change (Build.bind b f).value? = some c ↔ _
  rcases b with _ | ⟨log, e | a⟩
  · simp [Build.bind, value?]
  · simp [Build.bind, value?]
  · rcases h : f a with _ | ⟨log', e | c⟩ <;> simp [Build.bind, value?, h]

theorem value?_lift_iff {x : Option α} {a : α} :
    (liftM x : Build α).value? = some a ↔ x = some a := by
  cases x with
  | none => exact ⟨fun h ↦ (nomatch h), fun h ↦ (nomatch h)⟩
  | some b => exact Iff.rfl

theorem exists_mem_of_value?_mapM {f : α → Build β} {as : List α} {bs : List β}
    (h : (as.mapM f).value? = some bs) {a : α} (ha : a ∈ as) :
    ∃ b ∈ bs, (f a).value? = some b := by
  induction as generalizing bs with
  | nil => cases ha
  | cons c as ih =>
    rw [List.mapM_cons] at h
    obtain ⟨b, hb, h⟩ := value?_bind_iff.1 h
    obtain ⟨cs, hcs, h⟩ := value?_bind_iff.1 h
    cases h
    rcases List.mem_cons.1 ha with rfl | ha
    · exact ⟨b, List.mem_cons_self, hb⟩
    · obtain ⟨d, hd, hfd⟩ := ih hcs ha
      exact ⟨d, List.mem_cons_of_mem b hd, hfd⟩

theorem exists_of_mem_value?_mapM {f : α → Build β} {as : List α} {bs : List β}
    (h : (as.mapM f).value? = some bs) {b : β} (hb : b ∈ bs) :
    ∃ a ∈ as, (f a).value? = some b := by
  induction as generalizing bs with
  | nil =>
    cases h
    cases hb
  | cons c as ih =>
    rw [List.mapM_cons] at h
    obtain ⟨d, hd, h⟩ := value?_bind_iff.1 h
    obtain ⟨ds, hds, h⟩ := value?_bind_iff.1 h
    cases h
    rcases List.mem_cons.1 hb with rfl | hb
    · exact ⟨c, List.mem_cons_self, hd⟩
    · obtain ⟨a, ha, hfa⟩ := ih hds hb
      exact ⟨a, List.mem_cons_of_mem c ha, hfa⟩

theorem exists_value?_mapM {f : α → Build β} {as : List α}
    (h : ∀ a ∈ as, ∃ b, (f a).value? = some b) : ∃ bs, (as.mapM f).value? = some bs := by
  induction as with
  | nil => exact ⟨[], rfl⟩
  | cons a as ih =>
    obtain ⟨b, hb⟩ := h a List.mem_cons_self
    obtain ⟨bs, hbs⟩ := ih fun c hc ↦ h c (List.mem_cons_of_mem a hc)
    rw [List.mapM_cons]
    exact ⟨b :: bs, value?_bind_iff.2 ⟨b, hb, value?_bind_iff.2 ⟨bs, hbs, rfl⟩⟩⟩

theorem value?_mapM_of_mem_iff {f g : α → Build β} {as cs : List α} {bs : List β}
    (h : (as.mapM f).value? = some bs) (hmem : ∀ a, a ∈ as ↔ a ∈ cs) (hfg : ∀ a ∈ as, f a = g a) :
    ∃ ds, (cs.mapM g).value? = some ds ∧ ∀ b, b ∈ ds ↔ b ∈ bs := by
  have hvalue (c : α) (hc : c ∈ cs) : ∃ b ∈ bs, (g c).value? = some b := by
    rw [← hmem] at hc
    rw [← hfg c hc]
    exact exists_mem_of_value?_mapM h hc
  obtain ⟨ds, hds⟩ := exists_value?_mapM fun c hc ↦ (hvalue c hc).imp fun _ ↦ And.right
  refine ⟨ds, hds, fun b ↦ ⟨fun hb ↦ ?_, fun hb ↦ ?_⟩⟩
  · obtain ⟨c, hc, hcb⟩ := exists_of_mem_value?_mapM hds hb
    obtain ⟨b', hb', hcb'⟩ := hvalue c hc
    exact Option.some.inj (hcb.symm.trans hcb') ▸ hb'
  · obtain ⟨a, ha, hab⟩ := exists_of_mem_value?_mapM h hb
    rw [hfg a ha] at hab
    obtain ⟨d, hd, had⟩ := exists_mem_of_value?_mapM hds ((hmem a).1 ha)
    exact Option.some.inj (hab.symm.trans had) ▸ hd

theorem outcome_bind_iff {b : Build α} {f : α → Build β} {r : Option β} :
    (b >>= f).outcome = some r ↔
      (b.outcome = some none ∧ r = none) ∨
        ∃ a, b.outcome = some (some a) ∧ (f a).outcome = some r := by
  change (Build.bind b f).outcome = some r ↔ _
  rcases b with _ | ⟨log, e | a⟩
  · simp [Build.bind, outcome]
  · simp [Build.bind, outcome, eq_comm]
  · rcases h : f a with _ | ⟨log', e | c⟩ <;> simp [Build.bind, outcome, h]

theorem outcome_bind_congr {b c : Build α} {f g : α → Build β} (h : b.outcome = c.outcome)
    (hf : ∀ a, (f a).outcome = (g a).outcome) : (b >>= f).outcome = (c >>= g).outcome := by
  ext r
  simp only [outcome_bind_iff, h, hf]

theorem outcome_emit_bind {e : Event} {b : Build α} : (emit e >>= fun _ ↦ b).outcome = b.outcome := by
  change (Build.bind (emit e) fun _ ↦ b).outcome = _
  rcases b with _ | ⟨log, _ | a⟩ <;> simp [Build.bind, emit, outcome]

theorem outcome_of_keeps {x y : Build α} (h : Keeps x y) {r : Option α}
    (hx : x.outcome = some r) : y.outcome = some r := by
  rcases x with _ | ⟨log, s⟩
  · cases hx
  · rw [h log s rfl]
    exact hx

/-- With every large enough bound on its steps, a build ends so. -/
def Ends (b : Nat → Build α) (r : Option α) : Prop :=
  ∃ n, ∀ m, n ≤ m → (b m).outcome = some r

def Steady (b : Nat → Build α) : Prop :=
  ∀ n m, n ≤ m → Keeps (b n) (b m)

variable {b : Nat → Build α} {r s : Option α}

theorem Ends.unique (hr : Ends b r) (hs : Ends b s) : r = s := by
  obtain ⟨n, hn⟩ := hr
  obtain ⟨m, hm⟩ := hs
  have h := (hn _ (Nat.le_max_left n m)).symm.trans (hm _ (Nat.le_max_right n m))
  exact Option.some.inj h

theorem Steady.ends (h : Steady b) {n : Nat} (hn : (b n).outcome = some r) : Ends b r :=
  ⟨n, fun m hm ↦ outcome_of_keeps (h n m hm) hn⟩

theorem Steady.ends_iff (h : Steady b) : Ends b r ↔ ∃ n, (b n).outcome = some r :=
  ⟨fun ⟨n, hn⟩ ↦ ⟨n, hn n (Nat.le_refl n)⟩, fun ⟨_, hn⟩ ↦ h.ends hn⟩

theorem ends_add_iff (k : Nat) : Ends (fun n ↦ b (n + k)) r ↔ Ends b r := by
  constructor
  · rintro ⟨n, hn⟩
    refine ⟨n + k, fun m hm ↦ ?_⟩
    have h : (b (m - k + k)).outcome = some r := hn (m - k) (by omega)
    rwa [Nat.sub_add_cancel (by omega)] at h
  · rintro ⟨n, hn⟩
    exact ⟨n, fun m hm ↦ hn (m + k) (by omega)⟩

theorem Steady.add (h : Steady b) (k : Nat) : Steady fun n ↦ b (n + k) :=
  fun n m hm ↦ h (n + k) (m + k) (Nat.add_le_add_right hm k)

theorem Steady.const (x : Build α) : Steady fun _ ↦ x :=
  fun _ _ _ ↦ .refl x

theorem Steady.bind {f : Nat → α → Build β} (h : Steady b) (hf : ∀ a, Steady (f · a)) :
    Steady fun n ↦ b n >>= f n :=
  fun n m hm ↦ (h n m hm).bind fun a ↦ hf a n m hm

theorem ends_bind_iff {f : Nat → α → Build β} (h : Steady b) (hf : ∀ a, Steady (f · a))
    {r : Option β} :
    Ends (fun n ↦ b n >>= f n) r ↔
      (Ends b none ∧ r = none) ∨ ∃ a, Ends b (some a) ∧ Ends (f · a) r := by
  constructor
  · rw [(h.bind hf).ends_iff]
    rintro ⟨n, hn⟩
    rcases outcome_bind_iff.1 hn with ⟨hb, hr⟩ | ⟨a, hb, ha⟩
    · exact .inl ⟨h.ends hb, hr⟩
    · exact .inr ⟨a, h.ends hb, (hf a).ends ha⟩
  · rintro (⟨⟨n, hn⟩, hr⟩ | ⟨a, ⟨n, hn⟩, ⟨m, hm⟩⟩)
    · exact ⟨n, fun k hk ↦ outcome_bind_iff.2 (.inl ⟨hn k hk, hr⟩)⟩
    · exact ⟨max n m, fun k hk ↦ outcome_bind_iff.2
        (.inr ⟨a, hn k (Nat.max_le.1 hk).1, hm k (Nat.max_le.1 hk).2⟩)⟩

theorem ends_bind_some_iff {f : Nat → α → Build β} (h : Steady b) (hf : ∀ a, Steady (f · a))
    {c : β} :
    Ends (fun n ↦ b n >>= f n) (some c) ↔ ∃ a, Ends b (some a) ∧ Ends (f · a) (some c) := by
  rw [ends_bind_iff h hf]
  simp

@[simp]
theorem ends_pure_iff {a : α} : Ends (fun _ ↦ Pure.pure a) r ↔ r = some a := by
  constructor
  · rintro ⟨n, hn⟩
    exact (Option.some.inj (hn n (Nat.le_refl n))).symm
  · rintro rfl
    exact ⟨0, fun _ _ ↦ rfl⟩

theorem ends_emit_bind_iff {e : Event} {b : Nat → Build α} :
    Ends (fun n ↦ emit e >>= fun _ ↦ b n) r ↔ Ends b r := by
  simp only [Ends, outcome_emit_bind]

theorem ends_congr {b c : Nat → Build α} {n : Nat}
    (h : ∀ m, n ≤ m → (b m).outcome = (c m).outcome) : Ends b r ↔ Ends c r := by
  constructor <;> rintro ⟨k, hk⟩ <;> refine ⟨max n k, fun m hm ↦ ?_⟩ <;>
    obtain ⟨hn, hk'⟩ := Nat.max_le.1 hm
  · exact (h m hn).symm.trans (hk m hk')
  · exact (h m hn).trans (hk m hk')

end Build

end TypeTag
