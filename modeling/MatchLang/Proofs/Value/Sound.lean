import MatchLang.Machine.Test

/-! Well-formed values. A registry says which case has a number, if one has; the cases of all values
and types come from it. A value of a case has as many fields as the case says, and a partial call has fewer
arguments than its callee wants. -/

namespace MatchLang

abbrev Registry := Nat → Option Case

def Registry.Has (κ : Registry) (c : Case) : Prop :=
  κ c.id = some c

instance (κ : Registry) (c : Case) : Decidable (κ.Has c) :=
  inferInstanceAs (Decidable (κ c.id = some c))

theorem Registry.Has.eq_of_id {κ : Registry} {c d : Case} (hc : κ.Has c) (hd : κ.Has d)
    (h : c.id = d.id) : c = d := by
  have he : some c = some d := by rw [← hc, ← hd, h]
  exact Option.some.inj he

mutual

/-- Well-formed values whose functions have the property `P`. -/
def Value.Sound (κ : Registry) (P : Closure → Prop) : Value → Prop
  | .number _ => True
  | .text _ => True
  | .record c fields =>
    κ.Has c ∧ 0 < c.arity ∧ fields.length = c.arity ∧ SoundAll κ P fields
  | .constant c => κ.Has c ∧ c.arity = 0
  | .function c => P c
  | .partialCall _ callee args =>
    callee.Sound κ P ∧ SoundAll κ P args ∧ ∃ n, callee.arity? = some n ∧ args.length < n
  | .constructor c => κ.Has c ∧ 0 < c.arity
  | .native _ => True

def SoundAll (κ : Registry) (P : Closure → Prop) : List Value → Prop
  | [] => True
  | v :: vs => v.Sound κ P ∧ SoundAll κ P vs

end

section

variable {κ κ' : Registry} {P Q : Closure → Prop}

theorem soundAll_iff {vs : List Value} : SoundAll κ P vs ↔ ∀ v ∈ vs, v.Sound κ P := by
  induction vs with
  | nil => simp [SoundAll]
  | cons v vs ih => simp [SoundAll, ih]

theorem soundAll_append {vs ws : List Value} :
    SoundAll κ P (vs ++ ws) ↔ SoundAll κ P vs ∧ SoundAll κ P ws := by
  simp only [soundAll_iff, List.mem_append]
  exact ⟨fun h => ⟨fun v hv => h v (.inl hv), fun v hv => h v (.inr hv)⟩,
    fun h v hv => hv.elim (h.1 v) (h.2 v)⟩

mutual

/-- More cases may be registered and more functions count as well-formed. -/
theorem Value.Sound.mono (hκ : ∀ c, κ.Has c → κ'.Has c) (hp : ∀ c, P c → Q c) :
    {v : Value} → v.Sound κ P → v.Sound κ' Q
  | .number _, _ => by trivial
  | .text _, _ => by trivial
  | .record c _, h => ⟨hκ c h.1, h.2.1, h.2.2.1, SoundAll.mono hκ hp h.2.2.2⟩
  | .constant c, h => ⟨hκ c h.1, h.2⟩
  | .function c, h => hp c h
  | .partialCall _ _ _, h => ⟨Value.Sound.mono hκ hp h.1, SoundAll.mono hκ hp h.2.1, h.2.2⟩
  | .constructor c, h => ⟨hκ c h.1, h.2⟩
  | .native _, _ => by trivial

theorem SoundAll.mono (hκ : ∀ c, κ.Has c → κ'.Has c) (hp : ∀ c, P c → Q c) :
    {vs : List Value} → SoundAll κ P vs → SoundAll κ' Q vs
  | [], _ => by trivial
  | _ :: _, h => ⟨Value.Sound.mono hκ hp h.1, SoundAll.mono hκ hp h.2⟩

end

theorem Case.value_sound {c : Case} (h : κ.Has c) : c.value.Sound κ P := by
  by_cases ha : c.arity = 0
  · rw [Case.value, if_pos ha]
    exact ⟨h, ha⟩
  · rw [Case.value, if_neg ha]
    exact ⟨h, Nat.pos_of_ne_zero ha⟩

end

/-- The cases of a type come from the registry. -/
def DataType.Sound (κ : Registry) : DataType → Prop
  | .family _ cases => ∀ c ∈ cases, κ.Has c
  | .case c => κ.Has c
  | _ => True

theorem DataType.Sound.mono {κ κ' : Registry} (hκ : ∀ c, κ.Has c → κ'.Has c) {t : DataType}
    (h : t.Sound κ) : t.Sound κ' := by
  cases t with
  | family name cases => exact fun c hc => hκ c (h c hc)
  | case c => exact hκ c h
  | _ => trivial

/-- Well-formed types under the paths of some names. -/
def SoundTypes (κ : Registry) (find : List String → Except Fault DataType) : Prop :=
  ∀ path t, find path = .ok t → t.Sound κ

/-- The registry of the built-in cases. -/
def builtinRegistry : Registry := fun id =>
  (builtins.unitCases ++ builtins.listCases ++ builtins.boolCases)[id]?

theorem seed_types_sound {e : String × DataType}
    (h : e ∈ (builtins.seed (.empty true)).types) : e.2.Sound builtinRegistry := by
  have ht : (builtins.seed (.empty true)).types =
      [("Number", .number), ("String", .text), ("Function", .function),
        ("UnitT", .family "UnitT" builtins.unitCases), ("Unit", .case builtins.unit),
        ("List", .family "List" builtins.listCases), ("::", .case builtins.cons),
        ("Empty", .case builtins.empty), ("Bool", .family "Bool" builtins.boolCases),
        ("True", .case builtins.yes), ("False", .case builtins.no)] := rfl
  rw [ht] at h
  simp only [List.mem_cons, List.not_mem_nil, or_false] at h
  rcases h with rfl | rfl | rfl | rfl | rfl | rfl | rfl | rfl | rfl | rfl | rfl <;>
    simp [DataType.Sound, Builtins.unitCases, Builtins.listCases, Builtins.boolCases] <;> decide

section

variable {κ : Registry} {P : Closure → Prop} {t : DataType} {n : Nat} {v : Value}
  {rest parts : List Value}

/-- A type that is not a case leaves the value whole. -/
theorem decompose_whole (hc : ∀ c, t ≠ .case c) :
    decompose t n (v :: rest) =
      if n ≠ 1 then .error (.wrongParts t.name n)
      else if t.admits v then .ok (v :: rest) else .error (.typeMismatch t.name v.typeName) := by
  cases t with
  | case c => exact absurd rfl (hc c)
  | _ => rfl

/-- Only the top of the stack is taken apart. -/
theorem decompose_cons :
    decompose t n (v :: rest) = (decompose t n [v]).map (· ++ rest) := by
  by_cases hc : ∃ c, t = .case c
  · obtain ⟨c, rfl⟩ := hc
    by_cases hp : n = c.arity
    · cases v with
      | record d fields => by_cases hd : d.id = c.id <;> simp [decompose, hp, hd, Except.map]
      | constant d => by_cases hd : d.id = c.id <;> simp [decompose, hp, hd, Except.map]
      | _ => simp [decompose, hp, Except.map]
    · simp [decompose, hp, Except.map]
  · rw [not_exists] at hc
    rw [decompose_whole hc, decompose_whole hc]
    by_cases hp : n = 1
    · by_cases ha : t.admits v = true <;> simp [hp, ha, Except.map]
    · simp [hp, Except.map]

/-- A well-formed value comes apart into as many parts as were asked for, all of them well-formed. -/
theorem decompose_eq_ok (ht : t.Sound κ) (hv : v.Sound κ P) (h : decompose t n [v] = .ok parts) :
    parts.length = n ∧ SoundAll κ P parts := by
  by_cases hc : ∃ c, t = .case c
  · obtain ⟨c, rfl⟩ := hc
    by_cases hp : n = c.arity
    · cases v with
      | record d fields =>
        by_cases hd : d.id = c.id
        · have he : d = c := Registry.Has.eq_of_id hv.1 ht hd
          have hf : fields = parts := by simpa [decompose, hp, hd] using h
          exact ⟨by rw [← hf, hv.2.2.1, hp, he], hf ▸ hv.2.2.2⟩
        · simp [decompose, hp, hd] at h
      | constant d =>
        by_cases hd : d.id = c.id
        · have he : d = c := Registry.Has.eq_of_id hv.1 ht hd
          have hf : [] = parts := by simpa [decompose, hp, hd] using h
          exact ⟨by rw [← hf, hp, ← he, hv.2]; rfl, hf ▸ trivial⟩
        · simp [decompose, hp, hd] at h
      | _ => simp [decompose, hp] at h
    · simp [decompose, hp] at h
  · rw [not_exists] at hc
    rw [decompose_whole hc] at h
    by_cases hp : n = 1
    · by_cases ha : t.admits v = true
      · have hf : [v] = parts := by simpa [hp, ha] using h
        exact ⟨by rw [← hf, hp]; rfl, hf ▸ ⟨hv, trivial⟩⟩
      · simp [hp, ha] at h
    · simp [hp] at h

end

end MatchLang
