import MatchLang.Proofs.Links.Occurrences
import MatchLang.Proofs.Lists.Building
import MatchLang.Proofs.Pattern.Keeper

/-! Lists against the list pattern of as many names. Both lowerings of the pattern find the pairs by the
type that is called `::`; the test knows the end by its number, and taking a list apart knows it by the
type that is called `Empty`. -/

namespace MatchLang

/-- The pattern `[x₁ .. xₙ]`. -/
def namesPattern (xs : List Leaf) : Pattern :=
  .list (xs.map fun x => .name x.id x.name x.line)

/-- Names with the values they get. -/
def leafPieces (xs : List Leaf) (vs : List Value) : List Piece :=
  List.zipWith (fun x v => { id := x.id, name := x.name, line := x.line, value := v }) xs vs

/-- The type `::` is the case `d`, and `d` has a head and a tail. -/
def Case.IsCons (d : Case) (find : List String → Except Fault DataType) : Prop :=
  d.arity = 2 ∧ find [consName] = .ok (.case d)

/-- By the type `::`, the value is the elements `vs` in front of `e`. -/
def Listed (find : List String → Except Fault DataType) (e : Value) : List Value → Value → Prop
  | [], w => w = e
  | v :: vs, w => ∃ d u, Case.IsCons d find ∧ w = .record d [v, u] ∧ Listed find e vs u

/-- What the test of a list pattern for `n` elements lets pass: lists of as many elements that end in the
built-in empty list, and a constant for a pair if the type `::` is its case. -/
def TakenAsList (find : List String → Except Fault DataType) (n : Nat) (w : Value) : Prop :=
  (∃ us, us.length = n ∧ Listed find builtins.emptyList us w) ∨
    (n ≠ 0 ∧ ∃ c, w = .constant c ∧ find [consName] = .ok (.case c))

section

variable {κ : Registry} {P : Closure → Prop} {find : List String → Except Fault DataType}
  {d : Case} {e e' u v w : Value} {us vs parts : List Value} {xs : List Leaf}

theorem isEmptyList_iff (hκ : ∀ c, builtinRegistry.Has c → κ.Has c) (he : e.Sound κ P) :
    builtins.isEmptyList e = true ↔ e = builtins.emptyList := by
  constructor
  · intro h
    cases e with
    | constant c =>
      have hid : c.id = builtins.empty.id := by simpa [Builtins.isEmptyList] using h
      have hc : c = builtins.empty := Registry.Has.eq_of_id he.1 (hκ builtins.empty rfl) hid
      rw [hc]
      rfl
    | _ => simp [Builtins.isEmptyList] at h
  · rintro rfl
    rfl

theorem isUnit_iff (hκ : ∀ c, builtinRegistry.Has c → κ.Has c) (he : e.Sound κ P) :
    builtins.isUnit e = true ↔ e = builtins.unitValue := by
  constructor
  · intro h
    cases e with
    | constant c =>
      have hid : c.id = builtins.unit.id := by simpa [Builtins.isUnit] using h
      have hc : c = builtins.unit := Registry.Has.eq_of_id he.1 (hκ builtins.unit rfl) hid
      rw [hc]
      rfl
    | _ => simp [Builtins.isUnit] at h
  · rintro rfl
    rfl

/-- A value is one list only. -/
theorem Listed.eq (h : Listed find e us w) (h' : Listed find e' vs w) (hl : us.length = vs.length) :
    us = vs ∧ e = e' := by
  induction us generalizing vs w with
  | nil =>
    obtain rfl := List.length_eq_zero_iff.mp hl.symm
    exact ⟨rfl, h.symm.trans h'⟩
  | cons u us ih =>
    obtain ⟨v, vs, rfl⟩ := List.exists_cons_of_length_eq_add_one hl.symm
    obtain ⟨d, r, _, rfl, hr⟩ := h
    obtain ⟨d', r', _, he, hr'⟩ := h'
    cases he
    obtain ⟨rfl, he⟩ := ih hr hr' (Nat.succ.inj hl)
    exact ⟨rfl, he⟩

/-- What a case has made of values is the list of these values if the type `::` is that case. -/
theorem Case.Chain.listed_iff (hw : d.Chain e vs w) (hl : us.length = vs.length) :
    Listed find e' us w ↔ (vs = [] ∨ d.IsCons find) ∧ e' = e ∧ us = vs := by
  induction vs generalizing us w with
  | nil =>
    obtain rfl := List.length_eq_zero_iff.mp hl
    obtain rfl : w = e := hw
    simp [Listed, eq_comm]
  | cons v vs ih =>
    obtain ⟨u, us, rfl⟩ := List.exists_cons_of_length_eq_add_one hl
    obtain ⟨r, hr, hc⟩ := hw
    constructor
    · rintro ⟨d', r', hd', rfl, hr'⟩
      rcases hc with ⟨_, he⟩ | ⟨_, _, he⟩
      · cases he
        obtain ⟨_, rfl, rfl⟩ := (ih hr (Nat.succ.inj hl)).mp hr'
        exact ⟨.inr hd', rfl, rfl⟩
      · cases he
    · rintro ⟨hd, rfl, he⟩
      cases he
      have hd := hd.resolve_left nofun
      have hlist := (ih hr rfl).mpr ⟨.inr hd, rfl, rfl⟩
      rcases hc with ⟨_, rfl⟩ | ⟨hlt, _⟩
      · exact ⟨d, r, hd, rfl, hlist⟩
      · exact absurd hd.1 (Nat.ne_of_gt hlt)

theorem namesPattern_accepts_iff (ht : SoundTypes κ find)
    (hκ : ∀ c, builtinRegistry.Has c → κ.Has c) (hw : w.Sound κ P) :
    (namesPattern xs).shape.accepts find w = .ok true ↔ TakenAsList find xs.length w := by
  induction xs generalizing w with
  | nil =>
    have hs : (namesPattern []).shape.accepts find w = .ok (builtins.isEmptyList w) := by
      simp only [namesPattern, List.map_nil, Pattern.shape, listShape, Shape.accepts]
    rw [hs, Except.ok.injEq, isEmptyList_iff hκ hw]
    simp [TakenAsList, Listed]
  | cons x xs ih =>
    have hs : (namesPattern (x :: xs)).shape =
        .type [consName] [.any, (namesPattern xs).shape] := by
      simp only [namesPattern, List.map_cons, Pattern.shape, listShape]
    rw [hs]
    constructor
    · intro h
      cases hf : find [consName] with
      | error f => simp [Shape.accepts, hf] at h
      | ok t =>
        by_cases hc : ∃ c, t = .case c
        · obtain ⟨c, rfl⟩ := hc
          cases w with
          | record d fields =>
            obtain ⟨hid, hl, hall⟩ := (accepts_case_record hf).mp h
            obtain rfl : d = c := Registry.Has.eq_of_id hw.1 (ht _ _ hf) hid
            obtain ⟨v, u, rfl⟩ := List.length_eq_two.mp hl.symm
            obtain ⟨_, har, hvs⟩ := hw.2
            obtain ⟨_, hu, _⟩ := hvs
            have hd : d.IsCons find := ⟨har.symm, hf⟩
            rw [acceptsAll_cons, acceptsAll_cons] at hall
            rcases (ih hu).mp hall.2.1 with ⟨us, hlus, hus⟩ | ⟨_, c, rfl, hc⟩
            · exact .inl ⟨v :: us, congrArg (· + 1) hlus, d, u, hd, rfl, hus⟩
            · rw [hf, Except.ok.injEq, DataType.case.injEq] at hc
              rw [hc, hu.2] at har
              cases har
          | constant d =>
            rw [accepts_case_constant hf, Except.ok.injEq, beq_iff_eq] at h
            obtain rfl : d = c := Registry.Has.eq_of_id hw.1 (ht _ _ hf) h
            exact .inr ⟨nofun, d, rfl, hf⟩
          | _ => simp [Shape.accepts, hf] at h
        · rw [accepts_whole hf (not_exists.mp hc)] at h
          obtain ⟨_, _, he, _⟩ := h
          cases he
    · rintro (⟨us, hl, hus⟩ | ⟨_, c, rfl, hf⟩)
      · obtain ⟨v, us, rfl⟩ := List.exists_cons_of_length_eq_add_one hl
        obtain ⟨d, u, hd, rfl, hus⟩ := hus
        obtain ⟨_, hu, _⟩ := hw.2.2.2
        rw [accepts_case_record hd.2, acceptsAll_cons, acceptsAll_cons]
        refine ⟨rfl, rfl, by simp only [Shape.accepts], ?_, by simp only [acceptsAll]⟩
        exact (ih hu).mpr (.inl ⟨us, Nat.succ.inj hl, hus⟩)
      · rw [accepts_case_constant hf, beq_self_eq_true]

/-- A list that a case has made is let pass if the type `::` is that case and the list ends in the
built-in empty list. -/
theorem Case.Chain.taken_iff (hw : d.Chain e vs w) :
    TakenAsList find vs.length w ↔ (vs = [] ∨ d.IsCons find) ∧ e = builtins.emptyList := by
  constructor
  · rintro (⟨us, hl, hus⟩ | ⟨hn, c, rfl, _⟩)
    · obtain ⟨hd, he, _⟩ := (hw.listed_iff hl).mp hus
      exact ⟨hd, he.symm⟩
    · cases vs with
      | nil => exact absurd rfl hn
      | cons v vs =>
        obtain ⟨_, _, ⟨_, h⟩ | ⟨_, _, h⟩⟩ := hw
        · cases h
        · cases h
  · rintro ⟨hd, he⟩
    exact .inl ⟨vs, rfl, (hw.listed_iff rfl).mpr ⟨hd, he.symm, rfl⟩⟩

/-- Only a case comes apart into no parts, or into more than one. -/
theorem takeApart_iff {path : List String} {n : Nat} (hn : n ≠ 1) (ht : SoundTypes κ find)
    (hw : w.Sound κ P) :
    takeApart find path n w = .ok parts ↔
      ∃ d, find path = .ok (.case d) ∧ d.arity = n ∧
        (w = .record d parts ∨ w = .constant d ∧ parts = []) := by
  constructor
  · intro h
    cases hf : find path with
    | error f => simp [takeApart, hf] at h
    | ok t =>
      simp only [takeApart, hf] at h
      by_cases hc : ∃ c, t = .case c
      · obtain ⟨c, rfl⟩ := hc
        by_cases har : n = c.arity
        · subst har
          refine ⟨c, rfl, rfl, ?_⟩
          cases w with
          | record d fields =>
            by_cases hid : d.id = c.id
            · obtain rfl : d = c := Registry.Has.eq_of_id hw.1 (ht _ _ hf) hid
              simp [decompose] at h
              exact .inl (h ▸ rfl)
            · simp [decompose, hid] at h
          | constant d =>
            by_cases hid : d.id = c.id
            · obtain rfl : d = c := Registry.Has.eq_of_id hw.1 (ht _ _ hf) hid
              simp [decompose] at h
              exact .inr ⟨rfl, h⟩
            · simp [decompose, hid] at h
          | _ => simp [decompose] at h
        · simp [decompose, har] at h
      · rw [decompose_whole (not_exists.mp hc), if_pos hn] at h
        cases h
  · rintro ⟨d, hf, rfl, rfl | ⟨rfl, rfl⟩⟩ <;> simp [takeApart, hf, decompose]

/-- A list pattern takes a list of as many elements apart, if the type `Empty` is the case that it ends
in. -/
theorem namesPattern_pieces_iff (ht : SoundTypes κ find) (hw : w.Sound κ P) :
    ((namesPattern xs).pieces find w).fault = none ↔
      ∃ us c, us.length = xs.length ∧ find [emptyName] = .ok (.case c) ∧
        Listed find (.constant c) us w := by
  induction xs generalizing w with
  | nil =>
    have hta : ((namesPattern []).pieces find w).fault = none ↔
        ∃ parts, takeApart find [emptyName] 0 w = .ok parts := by
      simp only [namesPattern, List.map_nil, Pattern.pieces, itemPieces]
      cases takeApart find [emptyName] 0 w <;> simp [Pieces.none, Pieces.failed]
    rw [hta]
    constructor
    · rintro ⟨parts, hp⟩
      obtain ⟨d, hf, har, rfl | ⟨rfl, _⟩⟩ := (takeApart_iff (by decide) ht hw).mp hp
      · exact absurd har (Nat.ne_of_gt hw.2.1)
      · exact ⟨[], d, rfl, hf, rfl⟩
    · rintro ⟨us, c, hl, hf, hus⟩
      obtain rfl := List.length_eq_zero_iff.mp hl
      obtain rfl : w = .constant c := hus
      exact ⟨[], (takeApart_iff (by decide) ht hw).mpr ⟨c, hf, hw.2, .inr ⟨rfl, rfl⟩⟩⟩
  | cons x xs ih =>
    constructor
    · intro h
      simp only [namesPattern, List.map_cons, Pattern.pieces, itemPieces] at h
      cases hp : takeApart find [consName] 2 w with
      | error f => simp [hp, Pieces.failed] at h
      | ok parts =>
        obtain ⟨d, hf, har, rfl | ⟨rfl, _⟩⟩ := (takeApart_iff (by decide) ht hw).mp hp
        · have hlen : parts.length = 2 := hw.2.2.1.trans har
          obtain ⟨v, u, rfl⟩ := List.length_eq_two.mp hlen
          obtain ⟨_, hu, _⟩ := hw.2.2.2
          simp only [hp, Pieces.fault_andThen, true_and] at h
          have hrest : ((namesPattern xs).pieces find u).fault = none := by
            simpa only [namesPattern, Pattern.pieces] using h
          obtain ⟨us, c, hl, he, hus⟩ := (ih hu).mp hrest
          exact ⟨v :: us, c, congrArg (· + 1) hl, he, d, u, ⟨har, hf⟩, rfl, hus⟩
        · have := hw.2
          omega
    · rintro ⟨us, c, hl, he, hus⟩
      obtain ⟨v, us, rfl⟩ := List.exists_cons_of_length_eq_add_one hl
      obtain ⟨d, u, hd, rfl, hus⟩ := hus
      obtain ⟨_, hu, _⟩ := hw.2.2.2
      have hp : takeApart find [consName] 2 (.record d [v, u]) = .ok [v, u] :=
        (takeApart_iff (by decide) ht hw).mpr ⟨d, hd.2, hd.1, .inl rfl⟩
      have hrest := (ih hu).mpr ⟨us, c, Nat.succ.inj hl, he, hus⟩
      simp only [namesPattern, Pattern.pieces] at hrest
      simp only [namesPattern, List.map_cons, Pattern.pieces, itemPieces, hp,
        Pieces.fault_andThen, true_and]
      exact hrest

/-- The names get the elements in order. -/
theorem namesPattern_found (ht : SoundTypes κ find) (hw : w.Sound κ P)
    (hl : vs.length = xs.length) (hv : Listed find e vs w)
    (hf : ((namesPattern xs).pieces find w).fault = none) :
    ((namesPattern xs).pieces find w).found = leafPieces xs vs := by
  induction xs generalizing vs w with
  | nil =>
    simp only [namesPattern, List.map_nil, Pattern.pieces, itemPieces]
    cases takeApart find [emptyName] 0 w <;> rfl
  | cons x xs ih =>
    obtain ⟨v, vs, rfl⟩ := List.exists_cons_of_length_eq_add_one hl
    obtain ⟨d, u, hd, rfl, hus⟩ := hv
    obtain ⟨_, hu, _⟩ := hw.2.2.2
    have hp : takeApart find [consName] 2 (.record d [v, u]) = .ok [v, u] :=
      (takeApart_iff (by decide) ht hw).mpr ⟨d, hd.2, hd.1, .inl rfl⟩
    simp only [namesPattern, List.map_cons, Pattern.pieces, itemPieces, hp] at hf ⊢
    have hih := ih hu (Nat.succ.inj hl) hus
    simp only [namesPattern, Pattern.pieces] at hih
    simp only [Pieces.andThen, hih (Pieces.fault_andThen.mp hf).2]
    rfl

end

section

variable {w : Keeper} {σ σ' : Store} {n : Nat} {p : Piece} {ps : List Piece} {slot : Slot}

/-- A value that is kept goes to the slot of its name, and nothing else of the scope changes. -/
theorem Keeper.slot?_keep (h : w.keep p σ = .ok σ') (hs : w.links.get? p.id = some slot)
    (hw : w.scope < σ.scopes.size) :
    σ'.slot? w.scope n = (if n = slot.id then some p.value else σ.slot? w.scope n) ∧
      σ'.scopes.size = σ.scopes.size := by
  have ha : ∀ τ : Store, τ.scopes = σ.scopes → (w.assign p τ).slot? w.scope n =
      (if n = slot.id then some p.value else σ.slot? w.scope n) ∧
      (w.assign p τ).scopes.size = σ.scopes.size := by
    intro τ hτ
    have hslot : τ.slot? w.scope n = σ.slot? w.scope n := by rw [Store.slot?, hτ, ← Store.slot?]
    simp only [assign, hs]
    rw [Store.slot?_save, Store.size_save, hτ, hslot]
    simp [hw]
  unfold keep at h
  cases hp : w.publishAt with
  | none =>
    simp only [hp, Except.ok.injEq] at h
    exact h ▸ ha σ rfl
  | some path =>
    simp only [hp] at h
    cases hn : Machine.publishIn (σ.root w.root) path p.name p.value with
    | error f => simp [hn, Except.map] at h
    | ok ns =>
      simp only [hn, Except.map, Except.ok.injEq] at h
      exact h ▸ ha (σ.setRoot w.root ns) rfl

/-- Keeping values under names with other slots leaves a slot alone. -/
theorem Keeper.slot?_keepAll (hw : w.scope < σ.scopes.size)
    (h : ∀ p ∈ ps, ∃ slot, w.links.get? p.id = some slot ∧ slot.id ≠ n) :
    (w.keepAll ps σ).1.slot? w.scope n = σ.slot? w.scope n := by
  induction ps generalizing σ with
  | nil => rfl
  | cons p ps ih =>
    obtain ⟨slot, hs, hne⟩ := h p List.mem_cons_self
    cases hk : w.keep p σ with
    | error f => simp only [keepAll, hk]
    | ok σ' =>
      obtain ⟨hslot, hsize⟩ := slot?_keep (n := n) hk hs hw
      rw [if_neg hne.symm] at hslot
      simp only [keepAll, hk]
      rw [ih (hsize ▸ hw) fun q hq => h q (List.mem_cons_of_mem p hq), hslot]

/-- Names with slots of their own each keep their value. -/
theorem Keeper.keepAll_leaves {xs : List Leaf} {vs : List Value}
    (hl : xs.length = vs.length) (hs : ∀ x ∈ xs, ∃ slot, w.links.get? x.id = some slot)
    (hd : (xs.map fun x => (w.links.get? x.id).map Slot.id).Nodup) (hw : w.scope < σ.scopes.size)
    (hk : (w.keepAll (leafPieces xs vs) σ).2 = none) :
    List.Forall₂ (fun x v => ∃ slot, w.links.get? x.id = some slot ∧
      (w.keepAll (leafPieces xs vs) σ).1.slot? w.scope slot.id = some v) xs vs := by
  induction xs generalizing vs σ with
  | nil =>
    rw [List.length_eq_zero_iff.mp hl.symm]
    exact .nil
  | cons x xs ih =>
    obtain ⟨v, vs, rfl⟩ := List.exists_cons_of_length_eq_add_one hl.symm
    obtain ⟨slot, hx⟩ := hs x List.mem_cons_self
    rw [List.map_cons, List.nodup_cons] at hd
    have hrest : ∀ y ∈ xs, ∃ slot', w.links.get? y.id = some slot' ∧ slot'.id ≠ slot.id := by
      intro y hy
      obtain ⟨slot', hy'⟩ := hs y (List.mem_cons_of_mem x hy)
      refine ⟨slot', hy', fun he => hd.1 (List.mem_map.mpr ⟨y, hy, ?_⟩)⟩
      rw [hy', hx, Option.map_some, Option.map_some, he]
    have hpieces : ∀ q ∈ leafPieces xs vs, ∃ slot', w.links.get? q.id = some slot' ∧
        slot'.id ≠ slot.id := by
      intro q hq
      obtain ⟨i, hi, rfl⟩ := List.getElem_of_mem hq
      simp only [leafPieces, List.getElem_zipWith]
      exact hrest _ (List.getElem_mem _)
    cases hp : w.keep { id := x.id, name := x.name, line := x.line, value := v } σ with
    | error f => simp [leafPieces, keepAll, hp] at hk
    | ok σ' =>
      obtain ⟨hslot, hsize⟩ := slot?_keep (n := slot.id) hp hx hw
      rw [if_pos rfl] at hslot
      simp only [leafPieces, List.zipWith_cons_cons, keepAll, hp] at hk ⊢
      refine .cons ⟨slot, hx, ?_⟩ ?_
      · exact (slot?_keepAll (hsize ▸ hw) hpieces).trans hslot
      · exact ih (Nat.succ.inj hl) (fun y hy => hs y (List.mem_cons_of_mem x hy)) hd.2
          (hsize ▸ hw) hk

end

end MatchLang
