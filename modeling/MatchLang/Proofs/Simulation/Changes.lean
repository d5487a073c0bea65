import MatchLang.Proofs.Simulation.Twin

/-! What is done on both sides at once: numbers are given out, cells are made and assigned to, scopes are made. Each
leaves a run beside an evaluation. -/

namespace MatchLang

/-- Numbers after the given ones stand for one another as they are paired. -/
def Numbering.add (ρ : Numbering) (n n' : Nat) (pairs : Nat → Nat → Prop) : Numbering :=
  fun i j => ρ i j ∨ ∃ p q, pairs p q ∧ i = n + p ∧ j = n' + q

/-- Numbers up to `k` are paired with such numbers. -/
structure Pairing (pairs : Nat → Nat → Prop) (k : Nat) : Prop where
  lt : ∀ p q, pairs p q → p < k ∧ q < k
  iff : ∀ p q p' q', pairs p q → pairs p' q' → (p = p' ↔ q = q')

theorem Numbering.Fits.add {ρ : Numbering} {n n' k : Nat} {pairs : Nat → Nat → Prop} (h : ρ.Fits n n')
    (hp : Pairing pairs k) : (ρ.add n n' pairs).Fits (n + k) (n' + k) where
  lt := by
    rintro i j (hij | ⟨p, q, hpq, rfl, rfl⟩)
    · have := h.lt i j hij
      omega
    · have := hp.lt p q hpq
      omega
  iff := by
    rintro i j i' j' (hij | ⟨p, q, hpq, rfl, rfl⟩) (hij' | ⟨p', q', hpq', rfl, rfl⟩)
    · exact h.iff i j i' j' hij hij'
    · have := h.lt i j hij
      omega
    · have := h.lt i' j' hij'
      omega
    · have := hp.iff p q p' q' hpq hpq'
      omega
  builtin i hi := .inl (h.builtin i hi)

/-- Every number before `k` is paired with itself. -/
theorem Pairing.same (k : Nat) : Pairing (fun p q => p = q ∧ p < k) k where
  lt p q h := ⟨h.2, h.1 ▸ h.2⟩
  iff p q p' q' h h' := by rw [h.1, h'.1]

namespace Twin

section

variable (t : Twin)

/-- Some numbers are given out, and functions are made under some of them. -/
def advance (k : Nat) (pairs : Nat → Nat → Prop) (made : List (Nat × Lambda)) : Twin :=
  { t with
    store := { t.store with nextIdentity := t.store.nextIdentity + k }
    world := { t.world with
      nextIdentity := t.world.nextIdentity + k
      lambdas := made ++ t.world.lambdas }
    numbers := t.numbers.add t.store.nextIdentity t.world.nextIdentity pairs }

/-- A value is saved in the place of a cell. -/
def save (cell : Nat) (v w : Value) : Twin :=
  { t with
    store := t.store.save (t.place cell).1 (t.place cell).2 v
    world := t.world.assign cell w }

/-- A value is saved in the slot of an item. -/
def saveItem (scope slot : Nat) (v : Value) : Twin :=
  { t with store := t.store.save scope slot v }

/-- Cells are made for some names, with their slots in a scope. -/
def openNames (scope : Nat) (names : List String) (slot : String → Nat) : Twin :=
  { t with
    world := t.world.withCells names
    place := fun cell =>
      if cell < t.world.cells.size then t.place cell
      else (scope, slot (names.getD (cell - t.world.cells.size) "")) }

/-- A scope is made, in which some slots will be used. -/
def pushScope (parent : Option Nat) (own : Nat → Prop) : Twin :=
  { t with
    store := (t.store.newScope parent).2
    own := fun s n => if s = t.store.scopes.size then own n else t.own s n }

/-- What is neither a scope nor a cell is changed. -/
def outside (roots roots' : Array Namespace) (modules : List (String × Nat)) (console : Console) : Twin :=
  { t with
    store := { t.store with roots, modules, console }
    world := { t.world with roots := roots', modules, console } }

/-- A root is changed. -/
def setRoot (r : Nat) (ns ns' : Namespace) : Twin :=
  { t with store := t.store.setRoot r ns, world := t.world.setRoot r ns' }

/-- A module gets a root of its own. -/
def newModule : Twin :=
  { t with
    store := t.store.newSeededRoot.2
    world := { t.world with roots := t.world.roots.push (builtins.seed (.empty true)) } }

/-- A module is remembered with its root. -/
def remember (file : String) (r : Nat) : Twin :=
  { t with
    store := t.store.remember file r
    world := { t.world with modules := Table.set t.world.modules file r } }

/-- Something has been printed or read. -/
def setConsole (console : Console) : Twin :=
  { t with store := { t.store with console }, world := { t.world with console } }

/-- Slots up to `next` are given out, those from `items` on to the items of lists, and others to the names of units that
run in some scopes. -/
def allot (items next : Nat) (mine : Nat → Nat → Prop) : Twin :=
  { t with
    store := { t.store with nextSlot := next }
    own := fun s n => t.own s n ∨ mine s n ∧ t.store.nextSlot ≤ n ∧ n < items
    hidden := fun n => t.hidden n ∨ items ≤ n ∧ n < next }

end

section

variable {t t' : Twin} {s : Nat} {uses : Nat → Prop}

/-- Everything that values are compared by is as it was before, or there is more of it. -/
theorem Sound.root_onto (ht : t.Sound) (ho : t.Onto s uses t') (r : Nat) :
    (t.store.root r).Stands t'.numbers t'.Made (t.world.root r) :=
  (ht.root r).mono ho.numbers fun _ hc => hc.onto ht ho

theorem advance_onto {k : Nat} {pairs : Nat → Nat → Prop} {made : List (Nat × Lambda)} (ht : t.Sound)
    (hm : ∀ e ∈ made, t.world.nextIdentity ≤ e.1) : t.Onto s uses (t.advance k pairs made) :=
  { Onto.refl s uses t with
    numbers := fun _ _ h => .inl h
    lambdas := fun id f hf => by
      have hnone : made.lookup id = none := by
        refine List.lookup_eq_none_iff.mpr fun e he => ?_
        have := hm e he
        have := ht.lambdas id f hf
        simp only [bne_iff_ne, ne_eq]
        omega
      simp only [advance, List.lookup_append, hnone, Option.none_or, hf] }

theorem advance_sound {k : Nat} {pairs : Nat → Nat → Prop} {made : List (Nat × Lambda)} (ht : t.Sound)
    (hp : Pairing pairs k)
    (hm : ∀ e ∈ made, t.world.nextIdentity ≤ e.1 ∧ e.1 < t.world.nextIdentity + k) :
    (t.advance k pairs made).Sound :=
  have ho : t.Onto 0 Unused (t.advance k pairs made) := advance_onto ht fun e he => (hm e he).1
  { fits := ht.fits.add hp
    lambdas := fun id f hf => by
      simp only [advance, List.lookup_append] at hf
      rcases Option.or_eq_some_iff.mp hf with hf | ⟨-, hf⟩
      · obtain ⟨l₁, l₂, rfl, -⟩ := List.lookup_eq_some_iff.mp hf
        exact (hm (id, f) (by simp)).2
      · exact Nat.lt_of_lt_of_le (ht.lambdas id f hf) (Nat.le_add_right _ _)
    parents := ht.parents
    cell := fun cell hc => (ht.cell cell hc).imp fun _ _ h => Alike.onto h ht ho
    placed := ht.placed
    apart := ht.apart
    saved := ht.saved
    owned := ht.owned
    items := ht.items
    nested := ht.nested
    size := ht.size
    root := ht.root_onto ho
    modules := ht.modules
    console := ht.console }

/-! A value is saved in the place of a cell of the scope. -/

theorem save_onto {cell : Nat} {v w : Value} (ht : t.Sound) (hc : cell < t.world.cells.size) :
    t.Onto s uses (t.save cell v w) where
  numbers _ _ h := h
  cells := by simp [save, World.assign]
  place _ _ := rfl
  fresh cell' hc' hge := absurd hc' (by simpa [save, World.assign] using hge)
  own _ _ _ _ := .rfl
  hidden _ _ := .rfl
  scopes := Nat.le_of_eq Store.size_save.symm
  parents u _ := Store.parent?_save
  kept u n _ _ hh _ := by
    rw [save, Store.slot?_save, if_neg]
    rintro ⟨-, rfl, -⟩
    exact (ht.owned _ _ (ht.placed cell hc)).2.2 hh
  nextSlot := Nat.le_refl _
  lambdas _ _ h := h
  roots := Nat.le_refl _

theorem save_sound {cell : Nat} {v w : Value} (ht : t.Sound) (hc : cell < t.world.cells.size) (hv : t.Alike v w) :
    (t.save cell v w).Sound := by
  have ho : t.Onto 0 Unused (t.save cell v w) := save_onto ht hc
  have hsize : (t.save cell v w).world.cells.size = t.world.cells.size := by simp [save, World.assign]
  have hscope := (ht.owned _ _ (ht.placed cell hc)).1
  exact
  { fits := ht.fits
    lambdas := ht.lambdas
    parents := fun u p hp => ht.parents u p (Store.parent?_save ▸ hp)
    cell := fun cell' hc' => by
      rw [hsize] at hc'
      show Both _ ((t.store.save _ _ v).slot? (t.place cell').1 (t.place cell').2) ((t.world.assign cell w).cell? cell')
      rw [Store.slot?_save, World.cell?_assign]
      by_cases heq : cell' = cell
      · subst heq
        rw [if_pos ⟨rfl, rfl, hscope⟩, if_pos ⟨rfl, hc⟩]
        exact .inr ⟨v, w, rfl, rfl, Alike.onto hv ht ho⟩
      · rw [if_neg fun h => heq (ht.apart cell' hc' cell hc (Prod.ext h.1 h.2.1)), if_neg fun h => heq h.1]
        exact (ht.cell cell' hc').imp fun _ _ h => Alike.onto h ht ho
    placed := fun cell' hc' => ht.placed cell' (hsize ▸ hc')
    apart := fun c₁ h₁ c₂ h₂ => ht.apart c₁ (hsize ▸ h₁) c₂ (hsize ▸ h₂)
    saved := fun u n x hx => by
      rw [save, Store.slot?_save] at hx
      split at hx
      · rename_i h
        exact .inr ⟨cell, hsize.symm ▸ hc, by rw [h.1, h.2.1]; rfl⟩
      · refine (ht.saved u n x hx).imp_right fun h => ?_
        obtain ⟨c, hc, hp⟩ := h
        exact ⟨c, hsize.symm ▸ hc, hp⟩
    owned := fun u n h => by
      rw [save, Store.size_save]
      exact ht.owned u n h
    items := ht.items
    nested := fun u u' n hout hu hu' => ht.nested u u' n ((ho.outward ht (ht.owned u n hu).1).mp hout) hu hu'
    size := ht.size
    root := fun r => by
      rw [save, Store.root_save]
      exact ht.root_onto ho r
    modules := ht.modules
    console := ht.console }

/-! A value is saved in the slot of an item. -/

theorem saveItem_onto {slot : Nat} {v : Value} (hu : uses slot) : t.Onto s uses (t.saveItem s slot v) :=
  { Onto.refl s uses t with
    scopes := Nat.le_of_eq Store.size_save.symm
    parents := fun _ _ => Store.parent?_save
    kept := fun u n _ _ _ hne => by
      rw [saveItem, Store.slot?_save, if_neg]
      rintro ⟨rfl, rfl, -⟩
      exact hne rfl hu }

theorem saveItem_sound {slot : Nat} {v : Value} (ht : t.Sound) (hh : t.hidden slot) : (t.saveItem s slot v).Sound :=
  have ho : t.Onto s (fun _ => True) (t.saveItem s slot v) := saveItem_onto trivial
  { fits := ht.fits
    lambdas := ht.lambdas
    parents := fun u p hp => ht.parents u p (Store.parent?_save ▸ hp)
    cell := fun cell hc => by
      show Both _ ((t.store.save s slot v).slot? (t.place cell).1 (t.place cell).2) (t.world.cell? cell)
      have hne : (t.place cell).2 ≠ slot := fun h => (ht.owned _ _ (ht.placed cell hc)).2.2 (h ▸ hh)
      rw [Store.slot?_save, if_neg fun h => hne h.2.1]
      exact (ht.cell cell hc).imp fun _ _ h => Alike.onto h ht ho
    placed := ht.placed
    apart := ht.apart
    saved := fun u n x hx => by
      rw [saveItem, Store.slot?_save] at hx
      split at hx
      · rename_i h
        exact .inl (h.2.1 ▸ hh)
      · exact ht.saved u n x hx
    owned := fun u n h => by
      rw [saveItem, Store.size_save]
      exact ht.owned u n h
    items := ht.items
    nested := fun u u' n hout hu hu' => ht.nested u u' n ((ho.outward ht (ht.owned u n hu).1).mp hout) hu hu'
    size := ht.size
    root := fun r => by
      rw [saveItem, Store.root_save]
      exact ht.root_onto ho r
    modules := ht.modules
    console := ht.console }

/-! Cells are made for some names. -/

section

variable {names : List String} {slot : String → Nat} {a b : Nat} {own : Nat → Prop}

/-- A cell is an old one, or that of a name. -/
theorem openNames_cell {cell : Nat} (hc : cell < t.world.cells.size + names.length) :
    cell < t.world.cells.size ∧ (t.openNames s names slot).place cell = t.place cell ∨
      ∃ x ∈ names, names[cell - t.world.cells.size]? = some x ∧ t.world.cells.size ≤ cell ∧
        (t.openNames s names slot).place cell = (s, slot x) := by
  rcases Nat.lt_or_ge cell t.world.cells.size with hlt | hge
  · exact .inl ⟨hlt, if_pos hlt⟩
  · have hi : cell - t.world.cells.size < names.length := by omega
    refine .inr ⟨_, List.getElem_mem hi, List.getElem?_eq_getElem hi, hge, ?_⟩
    simp [openNames, Nat.not_lt.mpr hge, List.getD_eq_getElem?_getD, List.getElem?_eq_getElem hi]

theorem openNames_onto (hs : ∀ x ∈ names, uses (slot x)) : t.Onto s uses (t.openNames s names slot) :=
  { Onto.refl s uses t with
    cells := by simp [openNames]
    place := fun cell hc => if_pos hc
    fresh := fun cell hc hge => by
      rcases openNames_cell (by simpa [openNames] using hc) with ⟨hlt, -⟩ | ⟨x, hx, -, -, hp⟩
      · exact absurd hlt (Nat.not_lt.mpr hge)
      · exact .inr (hp ▸ ⟨rfl, hs x hx⟩) }

theorem openNames_sound (ht : t.Sound) (hc : t.Clear s own a b) (hf : Fills own a b)
    (hs : ∀ x ∈ names, a ≤ slot x ∧ slot x < b) (hn : names.Nodup)
    (hinj : ∀ x ∈ names, ∀ y ∈ names, slot x = slot y → x = y) : (t.openNames s names slot).Sound := by
  have ho : t.Onto s (fun _ => True) (t.openNames s names slot) := openNames_onto fun _ _ => trivial
  have hsize : (t.openNames s names slot).world.cells.size = t.world.cells.size + names.length := by
    simp [openNames]
  exact
  { fits := ht.fits
    lambdas := ht.lambdas
    parents := ht.parents
    cell := fun cell hcell => by
      show Both _ (t.store.slot? _ _) ((t.world.withCells names).cell? cell)
      rw [World.cell?_withCells]
      rcases openNames_cell (hsize ▸ hcell) with ⟨hlt, hp⟩ | ⟨x, hx, -, hge, hp⟩
      · rw [hp]
        exact (ht.cell cell hlt).imp fun _ _ h => Alike.onto h ht ho
      · rw [hp]
        obtain ⟨hxa, hxb⟩ := hs x hx
        refine .inl ⟨?_, ?_⟩
        · cases hv : t.store.slot? s (slot x) with
          | none => rfl
          | some v =>
            rcases ht.saved s (slot x) v hv with hh | ⟨cell', hc', hp'⟩
            · exact absurd hh (hc.plain _ hxa hxb)
            · have hfresh := hc.fresh cell' hc' (by rw [hp'])
              rw [hp'] at hfresh
              exact absurd hxb (hfresh hxa)
        · rw [World.cell?, Array.getElem?_eq_none hge]
          rfl
    placed := fun cell hcell => by
      rcases openNames_cell (hsize ▸ hcell) with ⟨hlt, hp⟩ | ⟨x, hx, -, -, hp⟩
      · rw [hp]
        exact ht.placed cell hlt
      · rw [hp]
        obtain ⟨hxa, hxb⟩ := hs x hx
        exact (hc.mine _ hxa hxb).mpr (hf _ hxa hxb)
    apart := fun c₁ h₁ c₂ h₂ heq => by
      rcases openNames_cell (hsize ▸ h₁) with ⟨hlt₁, hp₁⟩ | ⟨x, hx, hi, hge₁, hp₁⟩ <;>
        rcases openNames_cell (hsize ▸ h₂) with ⟨hlt₂, hp₂⟩ | ⟨y, hy, hj, hge₂, hp₂⟩ <;>
        rw [hp₁, hp₂] at heq
      · exact ht.apart c₁ hlt₁ c₂ hlt₂ heq
      · have hfresh := hc.fresh c₁ hlt₁ (by rw [heq])
        rw [heq] at hfresh
        exact absurd (hs y hy).2 (hfresh (hs y hy).1)
      · have hfresh := hc.fresh c₂ hlt₂ (by rw [← heq])
        rw [← heq] at hfresh
        exact absurd (hs x hx).2 (hfresh (hs x hx).1)
      · have hxy := hinj x hx y hy (Prod.ext_iff.mp heq).2
        subst hxy
        have hsame := (List.getElem?_inj (List.getElem?_eq_some_iff.mp hi).1 hn).mp (hi.trans hj.symm)
        omega
    saved := fun u n v hv => by
      refine (ht.saved u n v hv).imp_right fun h => ?_
      obtain ⟨cell, hlt, hp⟩ := h
      exact ⟨cell, Nat.lt_of_lt_of_le hlt ho.cells, (ho.place cell hlt).trans hp⟩
    owned := ht.owned
    items := ht.items
    nested := ht.nested
    size := ht.size
    root := ht.root_onto ho
    modules := ht.modules
    console := ht.console }

end

/-! A scope is made, in which some slots will be used. -/

section

variable {parent : Option Nat} {own : Nat → Prop}

theorem pushScope_onto : t.Onto s uses (t.pushScope parent own) :=
  { Onto.refl s uses t with
    own := fun u n hu _ => by simp [pushScope, Nat.ne_of_lt hu]
    scopes := by simp [pushScope, Store.size_newScope]
    parents := fun u hu => Store.parent?_newScope hu
    kept := fun u n _ _ _ _ => Store.slot?_newScope }

/-- The scopes around the new one. -/
theorem pushScope_outward (ht : t.Sound) (hp : ∀ p, parent = some p → p < t.store.scopes.size) {u : Nat}
    (ho : (t.pushScope parent own).store.Outward t.store.scopes.size u) :
    u = t.store.scopes.size ∨ ∃ p, parent = some p ∧ t.store.Outward p u := by
  rcases Relation.ReflTransGen.cases_head ho with heq | ⟨p, hstep, hrest⟩
  · exact .inl heq.symm
  · have hpar : parent = some p := Store.parent?_newScope_self.symm.trans hstep
    exact .inr ⟨p, hpar, (((pushScope_onto : t.Onto 0 Unused _)).outward ht (hp p hpar)).mp hrest⟩

theorem pushScope_sound (ht : t.Sound) (hp : ∀ p, parent = some p → p < t.store.scopes.size)
    (hn : ∀ n, own n → n < t.store.nextSlot ∧ ¬ t.hidden n)
    (ha : ∀ n p u, own n → parent = some p → t.store.Outward p u → ¬ t.own u n) :
    (t.pushScope parent own).Sound := by
  have ho : t.Onto 0 Unused (t.pushScope parent own) := pushScope_onto
  have hsize : (t.pushScope parent own).store.scopes.size = t.store.scopes.size + 1 := Store.size_newScope
  have hown : ∀ u n, (t.pushScope parent own).own u n → u = t.store.scopes.size ∧ own n ∨ t.own u n := by
    intro u n h
    simp only [pushScope] at h
    split at h
    · exact .inl ⟨‹_›, h⟩
    · exact .inr h
  have hbelow : ∀ u n, t.own u n → u ≠ t.store.scopes.size := fun u n h => Nat.ne_of_lt (ht.owned u n h).1
  exact
  { fits := ht.fits
    lambdas := ht.lambdas
    parents := fun u p hup => by
      rcases Nat.lt_trichotomy u t.store.scopes.size with hlt | heq | hgt
      · exact ht.parents u p ((ho.parents u hlt).symm.trans hup)
      · subst heq
        exact hp p (Store.parent?_newScope_self.symm.trans hup)
      · have hnone : (t.pushScope parent own).store.scopes[u]? = none :=
          Array.getElem?_eq_none (by omega)
        simp [Store.parent?, hnone] at hup
    cell := fun cell hc => by
      show Both _ ((t.store.newScope parent).2.slot? _ _) _
      rw [Store.slot?_newScope]
      exact (ht.cell cell hc).imp fun _ _ h => Alike.onto h ht ho
    placed := fun cell hc => by
      have h := ht.placed cell hc
      simpa [pushScope, hbelow _ _ h] using h
    apart := ht.apart
    saved := fun u n v hv => ht.saved u n v (Store.slot?_newScope ▸ hv)
    owned := fun u n h => by
      rcases hown u n h with ⟨rfl, hn'⟩ | h
      · exact ⟨by omega, hn n hn'⟩
      · have := ht.owned u n h
        exact ⟨by omega, this.2⟩
    items := ht.items
    nested := fun u u' n hout hu hu' => by
      rcases hown u n hu with ⟨rfl, hn'⟩ | hu
      · rcases pushScope_outward ht hp hout with rfl | ⟨p, hpar, hout'⟩
        · rfl
        · rcases hown u' n hu' with ⟨rfl, -⟩ | hu'
          · rfl
          · exact absurd hu' (ha n p u' hn' hpar hout')
      · have hlt := (ht.owned u n hu).1
        have hout' := (ho.outward ht hlt).mp hout
        rcases hown u' n hu' with ⟨rfl, -⟩ | hu'
        · exact absurd (hout'.le ht.parents) (Nat.not_le.mpr hlt)
        · exact ht.nested u u' n hout' hu hu'
    size := ht.size
    root := ht.root_onto ho
    modules := ht.modules
    console := ht.console }

/-- Names have not been used in a new scope. -/
theorem pushScope_clear (ht : t.Sound) (hp : ∀ p, parent = some p → p < t.store.scopes.size) {a b : Nat}
    {names : Nat → Prop} (hb : b ≤ t.store.nextSlot) (hh : ∀ n, a ≤ n → n < b → ¬ t.hidden n)
    (hm : ∀ n, a ≤ n → n < b → (own n ↔ names n))
    (ha : ∀ n p u, a ≤ n → n < b → parent = some p → t.store.Outward p u → ¬ t.own u n) :
    (t.pushScope parent own).Clear t.store.scopes.size names a b where
  bound := hb
  plain := hh
  mine n hn hn' := by simpa [pushScope] using hm n hn hn'
  outer n u hn hn' hout hne := by
    rcases pushScope_outward ht hp hout with rfl | ⟨p, hpar, hout'⟩
    · exact absurd rfl hne
    · simpa [pushScope, hne] using ha n p u hn hn' hpar hout'
  fresh cell hc hcs := absurd (ht.owned _ _ (ht.placed cell hc)).1 (by
    rw [show (t.place cell).1 = _ from hcs]
    exact Nat.lt_irrefl _)

/-- The names around a function are in reach in its scope. -/
theorem pushScope_reads {gs : List Group} {env : Env} {p : Nat} (ht : t.Sound) (hr : t.Reads gs env p)
    (hp : p < t.store.scopes.size) : (t.pushScope (some p) own).Reads gs env t.store.scopes.size := by
  have ho : t.Onto 0 Unused (t.pushScope (some p) own) := pushScope_onto
  intro name
  refine (hr name).imp fun slot cell ⟨hname, hlt, hid, hout⟩ => ⟨hname, hlt, hid, ?_⟩
  exact Relation.ReflTransGen.head Store.parent?_newScope_self ((ho.outward ht hp).mpr hout)

end

/-! Roots, modules and the console are changed. -/

section

variable {roots roots' : Array Namespace} {modules : List (String × Nat)} {console : Console}

theorem outside_onto (hr : t.store.roots.size ≤ roots.size) : t.Onto s uses (t.outside roots roots' modules console) :=
  { Onto.refl s uses t with roots := hr }

theorem outside_sound (ht : t.Sound) (hr : t.store.roots.size ≤ roots.size) (hsize : roots.size = roots'.size)
    (hroot : ∀ r, (roots.getD r (.empty true)).Stands t.numbers t.Made (roots'.getD r (.empty true))) :
    (t.outside roots roots' modules console).Sound :=
  have ho : t.Onto 0 Unused (t.outside roots roots' modules console) := outside_onto hr
  { fits := ht.fits
    lambdas := ht.lambdas
    parents := ht.parents
    cell := fun cell hc => (ht.cell cell hc).imp fun _ _ h => Alike.onto h ht ho
    placed := ht.placed
    apart := ht.apart
    saved := ht.saved
    owned := ht.owned
    items := ht.items
    nested := ht.nested
    size := hsize
    root := fun r => (hroot r).mono ho.numbers fun _ hc => hc.onto ht ho
    modules := rfl
    console := rfl }

end

section

variable {r : Nat} {ns ns' : Namespace}

theorem setRoot_eq (ht : t.Sound) : t.setRoot r ns ns' =
    t.outside (t.store.setRoot r ns).roots (t.world.setRoot r ns').roots t.store.modules t.store.console := by
  have hw : t.world.setRoot r ns' =
      { t.world with
        roots := (t.world.setRoot r ns').roots
        modules := t.store.modules
        console := t.store.console } := by
    rw [ht.modules, ht.console]
    rfl
  rw [setRoot, hw]
  rfl

theorem setRoot_onto : t.Onto s uses (t.setRoot r ns ns') :=
  { Onto.refl s uses t with roots := Nat.le_of_eq Store.size_setRoot.symm }

theorem setRoot_sound (ht : t.Sound) (hn : ns.Stands t.numbers t.Made ns') : (t.setRoot r ns ns').Sound := by
  rw [setRoot_eq ht]
  refine outside_sound ht (Nat.le_of_eq Store.size_setRoot.symm) ?_ fun i => ?_
  · rw [Store.size_setRoot, World.size_setRoot, ht.size]
  · show ((t.store.setRoot r ns).root i).Stands _ _ ((t.world.setRoot r ns').root i)
    rw [Store.root_setRoot, World.root_setRoot, ht.size]
    split
    · exact hn
    · exact ht.root i

end

theorem newModule_onto : t.Onto s uses t.newModule :=
  { Onto.refl s uses t with
    roots := by
      show t.store.roots.size ≤ (t.store.roots.push _).size
      simp }

theorem newModule_sound (ht : t.Sound) : t.newModule.Sound := by
  let seed := builtins.seed (.empty true)
  have hw : ({ t.world with roots := t.world.roots.push seed } : World) =
      { t.world with
        roots := t.world.roots.push seed
        modules := t.store.modules
        console := t.store.console } := by
    rw [ht.modules, ht.console]
  have heq : t.newModule =
      t.outside (t.store.roots.push seed) (t.world.roots.push seed) t.store.modules t.store.console := by
    rw [newModule, hw]
    rfl
  rw [heq]
  refine outside_sound ht (by simp) (by simp [ht.size]) fun r => ?_
  have hroot := ht.root r
  unfold Store.root World.root at hroot
  simp only [Array.getD_eq_getD_getElem?, Array.getElem?_push, ht.size] at hroot ⊢
  split
  · exact Namespace.Stands.seed ht.fits
  · exact hroot

theorem remember_onto {file : String} {r : Nat} : t.Onto s uses (t.remember file r) :=
  { Onto.refl s uses t with }

theorem remember_sound {file : String} {r : Nat} (ht : t.Sound) : (t.remember file r).Sound := by
  have heq : t.remember file r =
      t.outside t.store.roots t.world.roots (Table.set t.store.modules file r) t.store.console := by
    unfold remember outside Store.remember
    rw [ht.modules, ht.console]
  rw [heq]
  exact outside_sound ht (Nat.le_refl _) ht.size ht.root

theorem setConsole_eq {console : Console} (ht : t.Sound) : t.setConsole console =
    t.outside t.store.roots t.world.roots t.store.modules console := by
  have hw : ({ t.world with console } : World) = { t.world with modules := t.store.modules, console } := by
    rw [ht.modules]
  rw [setConsole, hw]
  rfl

theorem setConsole_onto {console : Console} : t.Onto s uses (t.setConsole console) :=
  { Onto.refl s uses t with }

theorem setConsole_sound {console : Console} (ht : t.Sound) : (t.setConsole console).Sound := by
  rw [setConsole_eq ht]
  exact outside_sound ht (Nat.le_refl _) ht.size ht.root

/-! Slots are given out. -/

section

variable {items next : Nat} {mine : Nat → Nat → Prop}

theorem allot_onto (hi : t.store.nextSlot ≤ items) (hn : items ≤ next) : t.Onto s uses (t.allot items next mine) :=
  { Onto.refl s uses t with
    own := fun u n _ hlt => or_iff_left fun h => Nat.not_lt.mpr h.2.1 hlt
    hidden := fun n hlt => or_iff_left fun h => by omega
    nextSlot := Nat.le_trans hi hn }

theorem allot_sound (ht : t.Sound) (hi : t.store.nextSlot ≤ items) (hn : items ≤ next)
    (hs : ∀ u n, mine u n → u < t.store.scopes.size) (hu : ∀ u u' n, mine u n → mine u' n → u = u') :
    (t.allot items next mine).Sound :=
  have ho : t.Onto 0 Unused (t.allot items next mine) := allot_onto hi hn
  have hold : ∀ u n, t.own u n → n < t.store.nextSlot := fun u n h => (ht.owned u n h).2.1
  { fits := ht.fits
    lambdas := ht.lambdas
    parents := ht.parents
    cell := fun cell hc => (ht.cell cell hc).imp fun _ _ h => Alike.onto h ht ho
    placed := fun cell hc => .inl (ht.placed cell hc)
    apart := ht.apart
    saved := fun u n v hv => (ht.saved u n v hv).imp_left .inl
    owned := fun u n h => by
      rcases h with h | ⟨hm, hge, hlt⟩
      · obtain ⟨hlt, hlt', hh⟩ := ht.owned u n h
        refine ⟨hlt, Nat.lt_of_lt_of_le hlt' (Nat.le_trans hi hn), fun hh' => hh'.elim hh fun h => ?_⟩
        omega
      · refine ⟨hs u n hm, Nat.lt_of_lt_of_le hlt hn, fun hh => ?_⟩
        rcases hh with hh | hh
        · have := ht.items n hh
          omega
        · omega
    items := fun n h => by
      rcases h with h | h
      · exact Nat.lt_of_lt_of_le (ht.items n h) (Nat.le_trans hi hn)
      · exact h.2
    nested := fun u u' n hout h h' => by
      rcases h with h | ⟨hm, hge, -⟩ <;> rcases h' with h' | ⟨hm', hge', -⟩
      · exact ht.nested u u' n hout h h'
      · exact absurd (hold u n h) (Nat.not_lt.mpr hge')
      · exact absurd (hold u' n h') (Nat.not_lt.mpr hge)
      · exact hu u u' n hm hm'
    size := ht.size
    root := ht.root_onto ho
    modules := ht.modules
    console := ht.console }

end

end

end Twin

end MatchLang
