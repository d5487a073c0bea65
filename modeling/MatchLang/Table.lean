/-! Tables by name: an entry set again takes the place of the one before. -/

namespace MatchLang

abbrev Table (α : Type) := List (String × α)

namespace Table

def get? (t : List (String × α)) (name : String) : Option α :=
  t.lookup name

def set : List (String × α) → String → α → List (String × α)
  | [], name, a => [(name, a)]
  | (n, b) :: t, name, a => if n = name then (name, a) :: t else (n, b) :: set t name a

/-- All entries of one table set in another. -/
def overlay (upper lower : List (String × α)) : List (String × α) :=
  upper.foldr (fun e t => set t e.1 e.2) lower

def names (t : List (String × α)) : List String :=
  t.map (·.1)

theorem get?_nil (name : String) : get? ([] : List (String × α)) name = none := rfl

theorem get?_cons (n : String) (a : α) (t : List (String × α)) (name : String) :
    get? ((n, a) :: t) name = if name = n then some a else get? t name := by
  by_cases h : name = n
  · simp [get?, h]
  · have hb : (name == n) = false := by simp [h]
    simp [get?, List.lookup_cons, h, hb]

@[simp] theorem get?_set (t : List (String × α)) (n : String) (a : α) (name : String) :
    get? (set t n a) name = if name = n then some a else get? t name := by
  induction t with
  | nil => simp only [set, get?_cons]
  | cons e t ih =>
    obtain ⟨m, b⟩ := e
    by_cases h : m = n
    · subst h
      by_cases hm : name = m <;> simp [set, get?_cons, hm]
    · by_cases hm : name = m
      · subst hm
        simp [set, get?_cons, h]
      · simp only [set, h, if_false, get?_cons, hm, ih]

/-- What is there already can be set again. -/
theorem set_eq_self {t : List (String × α)} {n : String} {a : α} (h : get? t n = some a) :
    set t n a = t := by
  induction t with
  | nil => cases h
  | cons e t ih =>
    obtain ⟨m, b⟩ := e
    rw [get?_cons] at h
    by_cases hm : n = m
    · rw [if_pos hm, Option.some.injEq] at h
      rw [set, if_pos hm.symm, hm, h]
    · rw [if_neg hm] at h
      rw [set, if_neg (Ne.symm hm), ih h]

theorem set_set (t : List (String × α)) (n : String) (a b : α) : set (set t n a) n b = set t n b := by
  induction t with
  | nil => simp [set]
  | cons e t ih =>
    obtain ⟨m, c⟩ := e
    by_cases hm : m = n
    · simp [set, hm]
    · simp [set, hm, ih]

/-- Two names of which one is there can be set in either order. -/
theorem set_comm {t : List (String × α)} {m n : String} (hne : m ≠ n) (hm : (get? t m).isSome)
    (a b : α) : set (set t m a) n b = set (set t n b) m a := by
  induction t with
  | nil => cases hm
  | cons e t ih =>
    obtain ⟨k, c⟩ := e
    rw [get?_cons] at hm
    by_cases hk : k = m
    · simp [set, hk, hne]
    · rw [if_neg (Ne.symm hk)] at hm
      by_cases hn : k = n
      · simp [set, hn, Ne.symm hne]
      · simp [set, hk, hn, ih hm]

theorem get?_overlay (upper lower : List (String × α)) (name : String) :
    get? (overlay upper lower) name = (get? upper name).or (get? lower name) := by
  induction upper with
  | nil => simp [overlay, get?_nil]
  | cons e upper ih =>
    obtain ⟨n, a⟩ := e
    have hc : overlay ((n, a) :: upper) lower = set (overlay upper lower) n a := rfl
    by_cases h : name = n <;> simp [hc, get?_cons, h, ih]

/-- What is set before names that are there, and again after them, need not have been set before. -/
theorem set_overlay_set {upper t : List (String × α)} {n : String}
    (h : ∀ m, (get? upper m).isSome → (get? t m).isSome) (a b : α) :
    set (overlay upper (set t n a)) n b = set (overlay upper t) n b := by
  induction upper with
  | nil => exact set_set t n a b
  | cons e upper ih =>
    obtain ⟨m, c⟩ := e
    have hrest : ∀ k, (get? upper k).isSome → (get? t k).isSome := by
      intro k hk
      refine h k ?_
      rw [get?_cons]
      split
      · rfl
      · exact hk
    have hc : ∀ t, overlay ((m, c) :: upper) t = set (overlay upper t) m c := fun _ => rfl
    have hm : (get? t m).isSome := h m (by simp [get?_cons])
    rw [hc, hc]
    by_cases hne : m = n
    · rw [hne, set_set, set_set, ih hrest]
    · have hset : (get? (overlay upper (set t n a)) m).isSome := by
        simp [get?_overlay, hne, hm]
      have hkept : (get? (overlay upper t) m).isSome := by
        simp [get?_overlay, hm]
      rw [set_comm hne hset, ih hrest, set_comm hne hkept]

theorem overlay_overlay (upper lower : List (String × α)) :
    overlay upper (overlay upper lower) = overlay upper lower := by
  induction upper with
  | nil => rfl
  | cons e upper ih =>
    obtain ⟨n, a⟩ := e
    have hc : ∀ t, overlay ((n, a) :: upper) t = set (overlay upper t) n a := fun _ => rfl
    have hthere : ∀ m, (get? upper m).isSome → (get? (overlay upper lower) m).isSome := by
      intro m hm
      rw [get?_overlay]
      cases hu : get? upper m with
      | none => simp [hu] at hm
      | some b => rfl
    rw [hc, hc, set_overlay_set hthere, ih]

end Table

end MatchLang
