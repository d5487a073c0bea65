import MatchLang.Proofs.Machine.Invariant
import MatchLang.Proofs.Machine.Passes
import MatchLang.Proofs.Machine.Walk
import MatchLang.Proofs.Namespace.Seed
import MatchLang.Proofs.Simulation.Changes

/-! Entering a group. Its names get new cells, whose places are the slots that the linker gave them in the scope of the
unit; what is declared around it stays in reach. -/

namespace MatchLang

theorem lookup_zipIdx (names : List String) (k : Nat) (name : String) :
    (names.zipIdx k).lookup name = if name ∈ names then some (k + names.idxOf name) else none := by
  induction names generalizing k with
  | nil => rfl
  | cons x xs ih =>
    rw [List.zipIdx_cons, List.lookup_cons]
    by_cases hx : name = x
    · simp [hx]
    · simp only [beq_eq_false_iff_ne.mpr hx, ih, List.mem_cons, hx, false_or, List.idxOf_cons_ne _ (Ne.symm hx)]
      split
      · rw [Nat.add_right_comm, Nat.add_assoc]
      · rfl

theorem patternsLeaves_append (ps qs : List Pattern) :
    patternsLeaves (ps ++ qs) = patternsLeaves ps ++ patternsLeaves qs := by
  induction ps with
  | nil => simp [patternsLeaves]
  | cons p ps ih => rw [List.cons_append, patternsLeaves, ih, patternsLeaves, List.append_assoc]

namespace Twin

variable {t t' : Twin} {s a b a' b' a₁ b₁ i j i' j' i₁ j₁ m : Nat} {own : Nat → Prop} {gs : List Group} {g : Group}
  {env : Env} {l : Links} {xs : List Leaf} {ps : List Pattern}

/-- Slots of names from `a` up to `b`, and of items from `i` up to `j`. -/
def Used (a b i j : Nat) : Nat → Prop :=
  fun n => a ≤ n ∧ n < b ∨ i ≤ n ∧ n < j

/-- A unit runs in a scope, where it finds the names around it, and is about to use the slots of some names and
items. -/
structure Ready (t : Twin) (s : Nat) (own : Nat → Prop) (gs : List Group) (env : Env) (a b i j : Nat) : Prop where
  sound : t.Sound
  scope : s < t.store.scopes.size
  reads : t.Reads gs env s
  clear : t.Clear s own a b
  items : ∀ n, i ≤ n → n < j → t.hidden n

/-- The cells of some leaves are for their slots in a scope. -/
def Binds (t : Twin) (l : Links) (xs : List Leaf) (env : Env) (s : Nat) : Prop :=
  ∀ x ∈ xs, ∃ slot cell, l.get? x.id = some slot ∧ env.lookup x.name = some cell ∧ cell < t.world.cells.size ∧
    t.place cell = (s, slot.id)

theorem Used.mono (ha : a ≤ a') (hb : b' ≤ b) (hi : i ≤ i') (hj : j' ≤ j) : ∀ n, Used a' b' i' j' n → Used a b i j n := by
  rintro n (h | h)
  · exact .inl (by omega)
  · exact .inr (by omega)

/-- When some slots have been used, others are still as they were. -/
theorem Ready.after (h : t.Ready s own gs env a b i j) (ht' : t'.Sound) (ho : t.Onto s (Used a₁ b₁ i₁ j₁) t')
    (a' b' i' j' : Nat) (ha : a ≤ a') (hb : b' ≤ b) (hi : i ≤ i') (hj : j' ≤ j) (hi₁ : i₁ < j₁ → i ≤ i₁ ∧ j₁ ≤ j)
    (hd : b₁ ≤ a' ∨ b' ≤ a₁) : t'.Ready s own gs env a' b' i' j' where
  sound := ht'
  scope := Nat.lt_of_lt_of_le h.scope ho.scopes
  reads := h.reads.onto h.sound ho h.scope
  clear := by
    refine (h.clear.sub ha hb).onto h.sound ho h.scope fun n hn hn' hu => ?_
    rcases hu with hu | hu
    · omega
    · exact h.clear.plain n (by omega) (by omega) (h.items n (by omega) (by omega))
  items n hn hn' := by
    have hh := h.items n (by omega) (by omega)
    exact (ho.hidden n (h.sound.items n hh)).mpr hh

/-- Where nothing has been used, all is as it was. -/
theorem Ready.keep (h : t.Ready s own gs env a b i j) (ht' : t'.Sound) (ho : t.Onto s Unused t') :
    t'.Ready s own gs env a b i j :=
  h.after ht' (Onto.mono (u := Used a a i i) ho fun _ => False.elim) a b i j (Nat.le_refl a) (Nat.le_refl b) (Nat.le_refl i)
    (Nat.le_refl j) (by omega) (.inl (Nat.le_refl a))

theorem Ready.sub (h : t.Ready s own gs env a b i j) (ha : a ≤ a') (hb : b' ≤ b) (hi : i ≤ i') (hj : j' ≤ j) :
    t.Ready s own gs env a' b' i' j' where
  sound := h.sound
  scope := h.scope
  reads := h.reads
  clear := h.clear.sub ha hb
  items n hn hn' := h.items n (Nat.le_trans hi hn) (Nat.lt_of_lt_of_le hn' hj)

/-- A unit whose slots have just been given out. -/
theorem allot_ready (ht : t.Sound) (hs : s < t.store.scopes.size) {items next : Nat} (hi : t.store.nextSlot ≤ items)
    (hn : items ≤ next) :
    (t.allot items next fun u n => u = s ∧ own n).Ready s own [] [] t.store.nextSlot items items next where
  sound := allot_sound ht hi hn (fun _ _ h => h.1 ▸ hs) fun _ _ _ h h' => h.1.trans h'.1.symm
  scope := hs
  reads _ := .inl ⟨rfl, rfl⟩
  clear :=
    { bound := hn
      plain := fun n hn hn' hh => by
        rcases hh with hh | hh
        · exact Nat.not_lt.mpr hn (ht.items n hh)
        · omega
      mine := fun n hn hn' => by
        refine ⟨fun h => ?_, fun h => .inr ⟨⟨rfl, h⟩, hn, hn'⟩⟩
        rcases h with h | h
        · exact absurd (ht.owned s n h).2.1 (Nat.not_lt.mpr hn)
        · exact h.1.2
      outer := fun n u hn _ _ hne h => by
        rcases h with h | h
        · exact Nat.not_lt.mpr hn (ht.owned u n h).2.1
        · exact hne h.1.1
      fresh := fun cell hc _ hn _ => Nat.not_lt.mpr hn (ht.owned _ _ (ht.placed cell hc)).2.1 }
  items _ hn hn' := .inr ⟨hn, hn'⟩

/-- A group without names changes nothing. -/
theorem Ready.silent (h : t.Ready s own gs env a b i j) (hg : ∀ name, g.lookup name = none) :
    t.Ready s own (g :: gs) env a b i j :=
  { h with
    reads := fun name => by
      have hfind : findSlot? (g :: gs) name = findSlot? gs name := by simp [findSlot?, hg name]
      rw [hfind]
      exact h.reads name }

theorem Binds.onto {uses : Nat → Prop} {s' : Nat} (h : t.Binds l xs env s) (ho : t.Onto s' uses t') : t'.Binds l xs env s := by
  intro x hx
  obtain ⟨slot, cell, hs, hc, hlt, hp⟩ := h x hx
  exact ⟨slot, cell, hs, hc, Nat.lt_of_lt_of_le hlt ho.cells, (ho.place cell hlt).trans hp⟩

theorem Binds.sub {ys : List Leaf} (h : t.Binds l xs env s) (hs : ∀ y ∈ ys, y ∈ xs) : t.Binds l ys env s :=
  fun y hy => h y (hs y hy)

theorem Binds.append {ys : List Leaf} (h : t.Binds l (xs ++ ys) env s) : t.Binds l xs env s ∧ t.Binds l ys env s :=
  ⟨h.sub fun _ hy => List.mem_append_left _ hy, h.sub fun _ hy => List.mem_append_right _ hy⟩

theorem Binds.cons {p : Pattern} (h : t.Binds l (patternsLeaves (p :: ps)) env s) :
    t.Binds l p.leaves env s ∧ t.Binds l (patternsLeaves ps) env s := by
  unfold patternsLeaves at h
  exact h.append

/-- A group is entered. -/
theorem Ready.enter (h : t.Ready s own gs env a b i j) (hd : g.Declares l (patternsLeaves ps) a m)
    (hf : Fills own a m) (hm : m ≤ b) :
    ∃ t' env', openGroup ps env t.world = (.ok env', t'.world) ∧ t'.store = t.store ∧
      t.Onto s (Used a m i i) t' ∧ t'.Ready s own (g :: gs) env' m b i j ∧
      t'.Binds l (patternsLeaves ps) env' s := by
  let names := patternsNames ps
  let slot : String → Nat := fun name => ((g.lookup name).map Slot.id).getD 0
  have hmem : ∀ x, x ∈ names ↔ ∃ y ∈ patternsLeaves ps, y.name = x := by
    intro x
    simp [names, patternsNames]
  have hslot : ∀ x ∈ names, ∃ sl, g.lookup x = some sl ∧ slot x = sl.id := by
    intro x hx
    obtain ⟨y, hy, rfl⟩ := (hmem x).mp hx
    obtain ⟨sl, -, hsl⟩ := hd.leaf y hy
    exact ⟨sl, hsl, by simp [slot, hsl]⟩
  have hbound : ∀ x ∈ names, a ≤ slot x ∧ slot x < m := by
    intro x hx
    obtain ⟨sl, hsl, heq⟩ := hslot x hx
    obtain ⟨-, hge, hlt, -⟩ := hd.entry x sl hsl
    exact heq ▸ ⟨hge, hlt⟩
  have hinj : ∀ x ∈ names, ∀ y ∈ names, slot x = slot y → x = y := by
    intro x hx y hy heq
    obtain ⟨sx, hsx, hx'⟩ := hslot x hx
    obtain ⟨sy, hsy, hy'⟩ := hslot y hy
    exact hd.distinct x y sx sy hsx hsy (hx' ▸ hy' ▸ heq)
  have hsound : (t.openNames s names slot).Sound :=
    openNames_sound h.sound (h.clear.sub (Nat.le_refl a) hm) hf hbound (List.nodup_dedup _) hinj
  have honto : t.Onto s (Used a m i i) (t.openNames s names slot) := openNames_onto fun x hx => .inl (hbound x hx)
  have hplace : ∀ x ∈ names,
      (t.openNames s names slot).place (t.world.cells.size + names.idxOf x) = (s, slot x) := by
    intro x hx
    have hi : names.idxOf x < names.length := List.idxOf_lt_length_iff.mpr hx
    have hnew : ¬ t.world.cells.size + names.idxOf x < t.world.cells.size := Nat.not_lt.mpr (Nat.le_add_right _ _)
    simp [openNames, hnew, List.getD_eq_getElem?_getD, List.getElem?_eq_getElem hi]
  have hsize : ∀ x ∈ names, t.world.cells.size + names.idxOf x < (t.openNames s names slot).world.cells.size := by
    intro x hx
    have hi : names.idxOf x < names.length := List.idxOf_lt_length_iff.mpr hx
    simpa [openNames] using hi
  have hlookup : ∀ x, (names.zipIdx t.world.cells.size ++ env).lookup x =
      if x ∈ names then some (t.world.cells.size + names.idxOf x) else env.lookup x := by
    intro x
    rw [List.lookup_append, lookup_zipIdx]
    split <;> simp
  have hafter := h.after hsound honto m b i j hd.le (Nat.le_refl b) (Nat.le_refl i) (Nat.le_refl j) (by omega)
    (.inl (Nat.le_refl m))
  refine ⟨t.openNames s names slot, _, rfl, rfl, honto, { hafter with reads := fun name => ?_ }, fun x hx => ?_⟩
  · rw [hlookup]
    by_cases hx : name ∈ names
    · obtain ⟨sl, hsl, heq⟩ := hslot name hx
      rw [if_pos hx]
      refine .inr ⟨sl, _, by simp [findSlot?, hsl], rfl, (hd.entry name sl hsl).1, hsize name hx, ?_⟩
      rw [hplace name hx]
      exact ⟨heq, .refl⟩
    · have hnone : g.lookup name = none := by
        cases hsl : g.lookup name with
        | none => rfl
        | some sl =>
          obtain ⟨-, -, -, x, hx', hname⟩ := hd.entry name sl hsl
          exact absurd ((hmem name).mpr ⟨x, hx', hname⟩) hx
      rw [if_neg hx]
      have hfind : findSlot? (g :: gs) name = findSlot? gs name := by simp [findSlot?, hnone]
      rw [hfind]
      exact hafter.reads name
  · have hxn : x.name ∈ names := (hmem _).mpr ⟨x, hx, rfl⟩
    obtain ⟨sl, hsl, hgl⟩ := hd.leaf x hx
    refine ⟨sl, _, hsl, (hlookup _).trans (if_pos hxn), hsize _ hxn, (hplace _ hxn).trans ?_⟩
    simp [slot, hgl]

end Twin

/-! What it means that a run follows an evaluation. When the evaluation has a value, the run comes to the end of the
code with it; it fails where the evaluation has a fault; and while the evaluation is not at its end, neither is the
run. -/

/-- Lists and the unit are the built-in ones. -/
structure Namespace.Standard (ns : Namespace) : Prop where
  value : ∀ c ∈ [builtins.cons, builtins.empty, builtins.unit], ns.findValue [c.name] = .ok c.value
  type : ∀ c ∈ [builtins.cons, builtins.empty, builtins.unit], ns.findType [c.name] = .ok (.case c)

/-- How a run fails, with what is known of the trace up to the running function. -/
def Machine.failureOf (m : Machine) (f : Fault) (trace : List TraceEntry) : Failure :=
  let e : Failure := { fault := f, trace := trace ++ m.task.frames.callers.map Frame.entry }
  match m.waiting with
  | [] => e
  | w :: ws => unwind w.task (.moduleRun m.task.module e.report) ws

/-- On its way a run keeps the invariant, and if lists are to be the built-in ones, they are. -/
def Machine.Trusted (host : Host) (sugar : Sugar) (m : Machine) : Prop :=
  ∀ m', m.Reaches host m' → (∃ κ h, m'.Ok κ h) ∧ (sugar = .builtIn → m'.home.Standard)

/-- An evaluation goes on as the function that is running. -/
structure Machine.Acts (m : Machine) (a : Activation) : Prop where
  text : m.frame.closure.text = a.self.text
  home : m.frame.closure.home = a.self.home
  module : m.frame.closure.module = a.self.module
  line : m.frame.closure.line = a.self.line
  arity : m.frame.closure.arity = a.self.arity
  depth : m.task.frames.depth = a.depth

section

variable {α : Type}

/-- A run from one machine comes to what an evaluation comes to: back in the function of another machine and before the
code `k`, or to a fault of this function, or to the restart of it on top of certain operands, or not to an end within
some number of steps. -/
def Machine.Tracks (host : Host) (level : Nat) (tail : Option (List Value)) (start m : Machine) (t : Twin)
    (uses : Nat → Prop) (post : Twin → α → List Value → Prop) (k : List Instr) : Except Halt α × World → Prop
  | (.ok a, ω) => ∃ t' os line, t'.world = ω ∧ t'.Sound ∧ t.Onto m.frame.scope uses t' ∧ post t' a os ∧
    start.Reaches host (m.resume t'.store os line k)
  | (.error (.fault f trace), ω) => ∃ (t' : Twin) (m' : Machine) (f' : Fault), t'.world = ω ∧ t'.Sound ∧ m'.store = t'.store ∧
    start.Raises host m' f' ∧ m'.failure f' = m.failureOf f trace
  | (.error (.restart args), ω) => ∃ below t' vs line line' is, tail = some below ∧ t'.world = ω ∧ t'.Sound ∧
    t.Onto m.frame.scope uses t' ∧ t'.AllAlike vs args ∧ vs.length = m.frame.closure.arity ∧
    start.Reaches host (m.resume t'.store (vs ++ below) line (.mk line' (.tailCall vs.length) :: is))
  | (.error .cut, _) => ∃ m', start.walk host level = some m'

/-- Wherever the line, the run of some code on some operands comes to what the evaluation comes to. -/
def Machine.Follows (host : Host) (sugar : Sugar) (level : Nat) (tail : Option (List Value)) (m : Machine) (t : Twin)
    (uses : Nat → Prop) (os : List Value) (is : List Instr) (x : Eval α)
    (post : Twin → α → List Value → Prop) (k : List Instr) : Prop :=
  ∀ line, (m.resume t.store os line is).Trusted host sugar →
    (m.resume t.store os line is).Tracks host level tail m t uses post k (x t.world)

end

namespace Machine

variable {α β : Type} {host : Host} {sugar : Sugar} {level : Nat} {tail : Option (List Value)} {m m' start : Machine}
  {t t' : Twin} {uses u : Nat → Prop} {os os' : List Value} {is k k' : List Instr} {x : Eval α} {f : α → Eval β}
  {post : Twin → α → List Value → Prop} {post' : Twin → β → List Value → Prop}

theorem Trusted.reaches (h : m.Trusted host sugar) (hr : m.Reaches host m') : m'.Trusted host sugar :=
  fun _ hr' => h _ (hr.trans hr')

theorem Trusted.ok (h : m.Trusted host sugar) : ∃ κ n, m.Ok κ n :=
  (h m (.refl m)).1

theorem Trusted.standard (h : m.Trusted host .builtIn) : m.home.Standard :=
  (h m (.refl m)).2 rfl

theorem failure_eq (m : Machine) (f : Fault) : m.failure f = m.failureOf f [m.frame.entry] := by
  rw [failure, failureOf]
  cases m.waiting <;> rfl

/-- How a run fails at a line of the running function. -/
theorem failure_resume {a : Activation} (ha : m.Acts a) {σ : Store} {os : List Value} {line : Nat} {is : List Instr}
    {f : Fault} : (m.resume σ os line is).failure f = m.failureOf f [a.entry line] := by
  have hentry : (m.resume σ os line is).frame.entry = a.entry line := by
    simp [Frame.entry, Activation.entry, ← ha.text, frame, resume, Frames.update]
  rw [failure_eq, hentry]
  rfl

/-- What is on the way to an outcome comes to it. -/
theorem Tracks.of_reaches (hr : start.Reaches host m') {r : Except Halt α × World}
    (h : m'.Tracks host level tail m t uses post k r) : start.Tracks host level tail m t uses post k r := by
  match r, h with
  | (.ok a, ω), ⟨t', os, line, hw, ht, ho, hp, hr'⟩ => exact ⟨t', os, line, hw, ht, ho, hp, hr.trans hr'⟩
  | (.error (.fault f trace), ω), ⟨t', m₂, f', hw, ht, hs, ⟨m₁, hr', hf⟩, he⟩ =>
    exact ⟨t', m₂, f', hw, ht, hs, ⟨m₁, hr.trans hr', hf⟩, he⟩
  | (.error (.restart args), ω), ⟨below, t', vs, line, line', is, hb, hw, ht, ho, ha, hl, hr'⟩ =>
    exact ⟨below, t', vs, line, line', is, hb, hw, ht, ho, ha, hl, hr.trans hr'⟩
  | (.error .cut, ω), ⟨m₂, hw⟩ =>
    obtain ⟨n, hn⟩ := hr
    obtain ⟨m₃, h₃, -⟩ := walk_le (walk_trans hn hw) (Nat.le_add_left level n)
    exact ⟨m₃, h₃⟩

/-- The store and the world before may be earlier ones. -/
theorem Tracks.onto (ho : t.Onto m.frame.scope uses t') {r : Except Halt α × World}
    (h : start.Tracks host level tail m t' uses post k r) : start.Tracks host level tail m t uses post k r := by
  match r, h with
  | (.ok a, ω), ⟨t', os, line, hw, ht, ho', hp, hr'⟩ => exact ⟨t', os, line, hw, ht, ho.trans ho', hp, hr'⟩
  | (.error (.fault f trace), ω), h => exact h
  | (.error (.restart args), ω), ⟨below, t', vs, line, line', is, hb, hw, ht, ho', ha, hl, hr'⟩ =>
    exact ⟨below, t', vs, line, line', is, hb, hw, ht, ho.trans ho', ha, hl, hr'⟩
  | (.error .cut, ω), h => exact h

theorem Tracks.mono (hu : ∀ n, uses n → u n) {r : Except Halt α × World}
    (h : start.Tracks host level tail m t uses post k r) : start.Tracks host level tail m t u post k r := by
  match r, h with
  | (.ok a, ω), ⟨t', os, line, hw, ht, ho, hp, hr⟩ => exact ⟨t', os, line, hw, ht, ho.mono hu, hp, hr⟩
  | (.error (.fault f trace), ω), h => exact h
  | (.error (.restart args), ω), ⟨below, t', vs, line, line', is, hb, hw, ht, ho, ha, hl, hr⟩ =>
    exact ⟨below, t', vs, line, line', is, hb, hw, ht, ho.mono hu, ha, hl, hr⟩
  | (.error .cut, ω), h => exact h

/-- First to one place, and on from there. -/
theorem Tracks.seq (h : start.Tracks host level tail m t u post k (x t.world)) (hu : ∀ n, u n → uses n)
    (hf : ∀ t' a os' line, t'.Sound → t.Onto m.frame.scope u t' → post t' a os' →
      start.Reaches host (m.resume t'.store os' line k) →
      (m.resume t'.store os' line k).Tracks host level tail m t' uses post' k' (f a t'.world)) :
    start.Tracks host level tail m t uses post' k' ((x >>= f) t.world) := by
  show Tracks host level tail _ m t uses post' k' (Eval.andThen x f t.world)
  unfold Eval.andThen
  cases hr : x t.world with
  | mk r ω =>
    rw [hr] at h
    match r, h with
    | .ok a, ⟨t', os', line', hw, ht', ho, hp, hr'⟩ =>
      subst hw
      exact ((hf t' a os' line' ht' ho hp hr').of_reaches hr').onto (ho.mono hu)
    | .error (.fault f trace), h => exact h
    | .error (.restart args), ⟨below, t', vs, line₁, line₂, is', hb, hw, ht, ho, ha, hl, hr⟩ =>
      exact ⟨below, t', vs, line₁, line₂, is', hb, hw, ht, ho.mono hu, ha, hl, hr⟩
    | .error .cut, h => exact h

namespace Follows

theorem mono (h : m.Follows host sugar level tail t uses os is x post k) (hu : ∀ n, uses n → u n) :
    m.Follows host sugar level tail t u os is x post k :=
  fun line ht => (h line ht).mono hu

/-- First one code and then another, of which the first may use less. -/
theorem seq (h : m.Follows host sugar level tail t u os is x post k) (hu : ∀ n, u n → uses n)
    (hf : ∀ t' a os', t'.Sound → t.Onto m.frame.scope u t' → post t' a os' →
      m.Follows host sugar level tail t' uses os' k (f a) post' k') :
    m.Follows host sugar level tail t uses os is (x >>= f) post' k' :=
  fun line htrust => (h line htrust).seq hu fun t' a os' line' ht' ho hp hr =>
    hf t' a os' ht' ho hp line' (htrust.reaches hr)

theorem bind (h : m.Follows host sugar level tail t uses os is x post k)
    (hf : ∀ t' a os', t'.Sound → t.Onto m.frame.scope uses t' → post t' a os' →
      m.Follows host sugar level tail t' uses os' k (f a) post' k') :
    m.Follows host sugar level tail t uses os is (x >>= f) post' k' :=
  h.seq (fun _ h => h) hf

/-- A value that is there already, with nothing to run. -/
theorem pure {a : α} (ht : t.Sound) (hp : post t a os) :
    m.Follows host sugar level tail t uses os k (pure a) post k :=
  fun line _ => ⟨t, os, line, rfl, ht, .refl _ _ _, hp, .refl _⟩

theorem congr {y : Eval α} (h : m.Follows host sugar level tail t uses os is y post k) (he : x t.world = y t.world) :
    m.Follows host sugar level tail t uses os is x post k := by
  intro line ht
  rw [he]
  exact h line ht

/-- What is known of a run may be used. -/
theorem of_trusted (h : ∀ line, (m.resume t.store os line is).Trusted host sugar →
    m.Follows host sugar level tail t uses os is x post k) : m.Follows host sugar level tail t uses os is x post k :=
  fun line ht => h line ht line ht

/-- One instruction that keeps the function running, for an evaluation that has a value. -/
theorem step {line' : Nat} {op : Op} {b : α} (hx : x t.world = (.ok b, t'.world)) (ht : t'.Sound)
    (ho : t.Onto m.frame.scope uses t') (hp : post t' b os')
    (hs : (m.resume t.store os line' k).perform host op = .running (m.resume t'.store os' line' k')) :
    m.Follows host sugar level tail t uses os (.mk line' op :: k) x post k' := by
  intro line _
  rw [hx]
  exact ⟨t', os', line', rfl, ht, ho, hp, .of_step (step_resume.trans hs)⟩

/-- One instruction that keeps the function running, and what comes after it. -/
theorem head {line' : Nat} {op : Op} {is' : List Instr} (ho : t.Onto m.frame.scope uses t') (hw : t'.world = t.world)
    (hs : (m.resume t.store os line' is).perform host op = .running (m.resume t'.store os' line' is'))
    (h : m.Follows host sugar level tail t' uses os' is' x post k) :
    m.Follows host sugar level tail t uses os (.mk line' op :: is) x post k := by
  intro line ht
  have hr : (m.resume t.store os line (.mk line' op :: is)).Reaches host (m.resume t'.store os' line' is') :=
    .of_step (step_resume.trans hs)
  rw [← hw]
  exact ((h line' (ht.reaches hr)).of_reaches hr).onto ho

/-- One instruction at which the fault of the evaluation comes up. -/
theorem fault {line' : Nat} {op : Op} {f : Fault} {a : Activation} {os₁ : List Value} {is₁ : List Instr} (ha : m.Acts a)
    (ht' : t'.Sound) (hx : x t.world = (.error (.fault f [a.entry line']), t'.world))
    (hs : (m.resume t.store os line' is).perform host op = .raised (m.resume t'.store os₁ line' is₁) f) :
    m.Follows host sugar level tail t uses os (.mk line' op :: is) x post k := by
  intro line _
  rw [hx]
  exact ⟨t', _, f, rfl, ht', rfl, ⟨_, .refl _, step_resume.trans hs⟩, failure_resume ha⟩

/-- A result or a fault that the instruction and the evaluation have in common. -/
theorem concord {β γ : Type} {r : Except Fault β} {r' : Except Fault γ} {R : β → γ → Prop} {line' : Nat} {op : Op}
    {a : Activation} (ha : m.Acts a) (ht : t.Sound) (hc : Concord R r r')
    (hok : ∀ b c, r = .ok b → r' = .ok c → R b c →
      m.Follows host sugar level tail t uses os (.mk line' op :: is) x post k)
    (hx : ∀ f, r' = .error f → x t.world = (.error (.fault f [a.entry line']), t.world))
    (hf : ∀ f, r = .error f → ∃ os₁ is₁,
      (m.resume t.store os line' is).perform host op = .raised (m.resume t.store os₁ line' is₁) f) :
    m.Follows host sugar level tail t uses os (.mk line' op :: is) x post k := by
  rcases hc.split with ⟨b, c, hb, hc, hbc⟩ | ⟨f, hr, hr'⟩
  · exact hok b c hb hc hbc
  · obtain ⟨os₁, is₁, hs⟩ := hf f hr
    exact .fault ha ht (hx f hr') hs

end Follows

end Machine

/-! Names and literals. A name of a group is read from its cell and from its slot, any other name is looked up in the
module of the running function. -/

theorem seed_standard : (builtins.seed (.empty true)).Standard where
  value := by simp only [List.forall_mem_cons]; exact ⟨rfl, rfl, rfl, by simp⟩
  type := by simp only [List.forall_mem_cons]; exact ⟨rfl, rfl, rfl, by simp⟩

section

variable {ρ : Numbering} {P : Closure → Prop} {n n' : Nat} {ns ns' : Namespace}

theorem Case.Like.eq_of_builtin {c d : Case} (hf : ρ.Fits n n') (hc : c.id < Builtins.count) (h : c.Like ρ d) : d = c := by
  have hid : c.id = d.id := (hf.iff _ _ _ _ (hf.builtin _ hc) h.id).mp rfl
  have hsame := h.same
  rw [hid] at hsame
  exact hsame

theorem Value.Stands.eq_of_builtin {c : Case} {w : Value} (hf : ρ.Fits n n') (hc : c.id < Builtins.count)
    (h : c.value.Stands ρ P w) : w = c.value := by
  have hlike := h.like
  unfold Case.value at hlike
  split at hlike
  · rename_i hzero
    cases hlike with
    | constant hd _ => rw [hd.eq_of_builtin hf hc, Case.value, if_pos hzero]
  · rename_i hpos
    cases hlike with
    | constructor hd _ => rw [hd.eq_of_builtin hf hc, Case.value, if_neg hpos]

theorem id_of_mem_builtin {c : Case} (hc : c ∈ [builtins.cons, builtins.empty, builtins.unit]) :
    c.id < Builtins.count := by
  revert c
  decide

/-- Where the built-in cases are found on the one side, they are on the other. -/
theorem Namespace.Stands.standard (h : ns.Stands ρ P ns') (hf : ρ.Fits n n') (hs : ns.Standard) : ns'.Standard where
  value c hc := by
    obtain ⟨v, w, hv, hw, hlike⟩ | ⟨f, hf', -⟩ := (h.findValue [c.name]).split
    · cases hv.symm.trans (hs.value c hc)
      rw [hw, hlike.eq_of_builtin hf (id_of_mem_builtin hc)]
    · cases hf'.symm.trans (hs.value c hc)
  type c hc := by
    obtain ⟨v, w, hv, hw, hlike⟩ | ⟨f, hf', -⟩ := (h.findType [c.name]).split
    · cases hv.symm.trans (hs.type c hc)
      cases hlike with
      | case hd => rw [hw, hd.eq_of_builtin hf (id_of_mem_builtin hc)]
    · cases hf'.symm.trans (hs.type c hc)

end

/-- What an expression leaves on the stack. -/
def Twin.Pushes (os : List Value) (t : Twin) (w : Value) (os' : List Value) : Prop :=
  ∃ v, os' = v :: os ∧ t.Alike v w

namespace Machine

variable {host : Host} {sugar : Sugar} {level : Nat} {tail : Option (List Value)} {m : Machine} {a : Activation}
  {t : Twin} {uses : Nat → Prop} {os : List Value} {line : Nat} {k : List Instr}

/-- The roots of the module of the running function. -/
theorem Acts.home_stands (ha : m.Acts a) (ht : t.Sound) :
    (t.store.root m.frame.closure.home).Stands t.numbers t.Made (t.world.root a.self.home) :=
  ha.home ▸ ht.root _

/-- A name that is looked up in the module. -/
theorem follows_loadName (ha : m.Acts a) (ht : t.Sound) {x : Eval Value} {path : List String}
    (hx : x t.world = a.orRaise line ((t.world.root a.self.home).findValue path) t.world) :
    m.Follows host sugar level tail t uses os (.mk line (.loadName path) :: k) x (Twin.Pushes os) k := by
  refine .concord ha ht ((ha.home_stands ht).findValue path) (fun v w hv hw hvw => ?_) (fun f hf => ?_) fun f hf => ?_
  · rw [hw] at hx
    exact .step hx ht (.refl _ _ _) ⟨v, rfl, hvw⟩ (perform_loadName_ok hv)
  · rw [hx, hf]
    rfl
  · exact ⟨_, _, perform_loadName_error hf⟩

theorem readCell_eq {name : String} {cell : Nat} {ω : World} :
    a.readCell line name cell ω =
      match ω.cell? cell with
      | some v => (.ok v, ω)
      | none => (.error (.fault (.unassigned name) [a.entry line]), ω) := by
  refine (Eval.bind_ok (x := Eval.look _) rfl).trans ?_
  cases ω.cell? cell <;> rfl

/-- Lists and the unit are looked up where they mean what they mean in the module. -/
theorem Acts.space (ha : m.Acts a) (ht : t.Sound) {os : List Value} {is : List Instr}
    (htrust : (m.resume t.store os line is).Trusted host sugar) :
    ∃ space, sugar.space a t.world = (.ok space, t.world) ∧
      ∀ c ∈ [builtins.cons, builtins.empty, builtins.unit],
        space.findValue [c.name] = (t.world.root a.self.home).findValue [c.name] ∧
        space.findType [c.name] = (t.world.root a.self.home).findType [c.name] := by
  cases sugar with
  | named => exact ⟨_, rfl, fun _ _ => ⟨rfl, rfl⟩⟩
  | builtIn =>
    have hs := (ha.home_stands ht).standard ht.fits (resume_home ▸ htrust.standard)
    refine ⟨_, rfl, fun c hc => ⟨?_, ?_⟩⟩
    · rw [seed_standard.value c hc, hs.value c hc]
    · rw [seed_standard.type c hc, hs.type c hc]

theorem follows_readSugar (ha : m.Acts a) (ht : t.Sound) {c : Case}
    (hc : c ∈ [builtins.cons, builtins.empty, builtins.unit]) :
    m.Follows host sugar level tail t uses os (.mk line (.loadName [c.name]) :: k) (a.readSugar sugar line c.name)
      (Twin.Pushes os) k := by
  refine .of_trusted fun line' htrust => follows_loadName ha ht ?_
  obtain ⟨space, hspace, hsame⟩ := ha.space ht htrust
  refine (Eval.bind_ok hspace).trans ?_
  rw [(hsame c hc).1]

theorem follows_literal (ha : m.Acts a) (ht : t.Sound) (value : Literal) :
    m.Follows host sugar level tail t uses os (.mk line value.op :: k) (a.literal sugar line value) (Twin.Pushes os) k := by
  cases value with
  | number x => exact .step rfl ht (.refl _ _ _) ⟨.number x, rfl, .number x⟩ rfl
  | text s => exact .step rfl ht (.refl _ _ _) ⟨.text s, rfl, .text s⟩ rfl
  | unit => exact follows_readSugar ha ht (c := builtins.unit) (by simp)
  | emptyList => exact follows_readSugar ha ht (c := builtins.empty) (by simp)

theorem follows_readName (ha : m.Acts a) (ht : t.Sound) {l : Links} {gs : List Group} {env : Env}
    (hr : t.Reads gs env m.frame.scope) {n : QName} (hl : l.get? n.id = n.single?.bind (findSlot? gs)) :
    m.Follows host sugar level tail t uses os (.mk n.line (n.op l) :: k) (a.readName env n) (Twin.Pushes os) k := by
  unfold Activation.readName QName.op
  rw [hl]
  cases hs : n.single? with
  | none => exact follows_loadName ha ht rfl
  | some s =>
    rw [Option.bind_some]
    cases hg : findSlot? gs s with
    | none =>
      obtain ⟨-, henv⟩ | ⟨slot, cell, hslot, -⟩ := hr s
      · rw [Option.bind_some, henv]
        exact follows_loadName ha ht rfl
      · cases hslot.symm.trans hg
    | some slot =>
      obtain ⟨cell, henv, hname, hboth⟩ := hr.lookup ht hg
      rw [Option.bind_some, henv]
      rcases hboth with ⟨hnone, hcell⟩ | ⟨v, w, hv, hw, hvw⟩
      · refine .fault ha ht ?_ (perform_loadLocal_none hnone)
        show a.readCell n.line s cell t.world = _
        rw [readCell_eq, hcell, hname]
      · refine .step ?_ ht (.refl _ _ _) ⟨v, rfl, hvw⟩ (perform_loadLocal_some hv)
        show a.readCell n.line s cell t.world = _
        rw [readCell_eq, hw]

end Machine

end MatchLang
