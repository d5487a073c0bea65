import MatchLang.Proofs.Simulation.Calls

/-! Lists of functions and literals. A run makes such a list from its end, while an evaluation makes the first element
first; so the functions in it get other numbers. As nothing but making them is done in between, the numbers can be
paired when the list is there. -/

namespace MatchLang

/-- What is made when the next numbers are given out, by a run and by an evaluation: how many numbers, which of them
stand for one another, what comes of it on either side, and the functions of the evaluation. -/
structure Making (α : Type) where
  count : Nat
  pairs : Nat → Nat → Prop
  here : Nat → α
  there : Nat → α
  lambdas : Nat → List (Nat × Lambda)

namespace Making

variable {α : Type}

/-- The numbers are given out one for one. -/
structure Fair (M : Making α) : Prop where
  pairing : Pairing M.pairs M.count
  fresh : ∀ n, ∀ e ∈ M.lambdas n, n ≤ e.1 ∧ e.1 < n + M.count

/-- An evaluation does nothing else. -/
def Evaluates (M : Making α) (x : Eval α) : Prop :=
  ∀ ω, x ω = (.ok (M.there ω.nextIdentity),
    { ω with
      nextIdentity := ω.nextIdentity + M.count
      lambdas := M.lambdas ω.nextIdentity ++ ω.lambdas })

/-- What comes of it is related in every later twin that has the numbers and the functions. -/
def Stands (M : Making α) (t : Twin) (s : Nat) (related : Twin → α → α → Prop) : Prop :=
  ∀ t' n n', t'.Sound → t.Onto s (fun _ => True) t' → (∀ p q, M.pairs p q → t'.numbers (n + p) (n' + q)) →
    (∀ id f, (M.lambdas n').lookup id = some f → t'.world.lambdas.lookup id = some f) →
    related t' (M.here n) (M.there n')

/-- Nothing is made. -/
def same (x : α) : Making α :=
  { count := 0, pairs := fun _ _ => False, here := fun _ => x, there := fun _ => x, lambdas := fun _ => [] }

theorem same_fair (x : α) : (same x).Fair where
  pairing := ⟨fun _ _ h => h.elim, fun _ _ _ _ h => h.elim⟩
  fresh _ _ he := absurd he List.not_mem_nil

def map {β : Type} (M : Making α) (f : α → β) : Making β :=
  { M with here := fun n => f (M.here n), there := fun n => f (M.there n) }

/-- An element in front of others. The run makes the others first, the evaluation the element. -/
def inFront (A : Making α) (M : Making (List α)) : Making (List α) where
  count := A.count + M.count
  pairs p q := (∃ p', p = M.count + p' ∧ A.pairs p' q) ∨ ∃ q', q = A.count + q' ∧ M.pairs p q'
  here n := A.here (n + M.count) :: M.here n
  there n := A.there n :: M.there (n + A.count)
  lambdas n := M.lambdas (n + A.count) ++ A.lambdas n

theorem inFront_fair {A : Making α} {M : Making (List α)} (hA : A.Fair) (hM : M.Fair) : (A.inFront M).Fair where
  pairing := by
    refine ⟨?_, ?_⟩
    · rintro p q (⟨p', rfl, h⟩ | ⟨q', rfl, h⟩)
      · have := hA.pairing.lt _ _ h
        simp only [inFront]
        omega
      · have := hM.pairing.lt _ _ h
        simp only [inFront]
        omega
    · rintro p q p' q' (⟨i, rfl, h⟩ | ⟨i, rfl, h⟩) (⟨i', rfl, h'⟩ | ⟨i', rfl, h'⟩)
      · have := hA.pairing.iff _ _ _ _ h h'
        omega
      · have := hA.pairing.lt _ _ h
        have := hM.pairing.lt _ _ h'
        omega
      · have := hM.pairing.lt _ _ h
        have := hA.pairing.lt _ _ h'
        omega
      · have := hM.pairing.iff _ _ _ _ h h'
        omega
  fresh n e he := by
    simp only [inFront, List.mem_append] at he ⊢
    rcases he with he | he
    · have := hM.fresh _ e he
      omega
    · have := hA.fresh _ e he
      omega

theorem Fair.lookup_fresh {M : Making α} (h : M.Fair) {n id : Nat} {f : Lambda}
    (hf : (M.lambdas n).lookup id = some f) : n ≤ id ∧ id < n + M.count := by
  obtain ⟨l₁, l₂, heq, -⟩ := List.lookup_eq_some_iff.mp hf
  exact h.fresh n (id, f) (by simp [heq])

theorem inFront_stands {A : Making Value} {M : Making (List Value)} {t : Twin} {s : Nat} (hfA : A.Fair) (hfM : M.Fair)
    (hA : A.Stands t s Twin.Alike) (hM : M.Stands t s Twin.AllAlike) : (A.inFront M).Stands t s Twin.AllAlike := by
  intro t' n n' ht ho hp hf
  refine .cons (hA t' _ _ ht ho (fun p q h => ?_) fun id f h => hf id f ?_)
    (hM t' _ _ ht ho (fun p q h => ?_) fun id f h => hf id f ?_)
  · rw [Nat.add_assoc]
    exact hp _ _ (.inl ⟨p, rfl, h⟩)
  · have hlt := hfA.lookup_fresh h
    have hnone : (M.lambdas (n' + A.count)).lookup id = none := by
      cases hm : (M.lambdas (n' + A.count)).lookup id with
      | none => rfl
      | some f' =>
        have := hfM.lookup_fresh hm
        omega
    simp only [inFront, List.lookup_append, hnone, Option.none_or, h]
  · rw [Nat.add_assoc]
    exact hp _ _ (.inr ⟨q, rfl, h⟩)
  · simp only [inFront, List.lookup_append, h, Option.some_or]

theorem inFront_evaluates {A : Making α} {M : Making (List α)} {x : Eval α} {y : Eval (List α)} (hA : A.Evaluates x)
    (hM : M.Evaluates y) : (A.inFront M).Evaluates (do
      let v ← x
      let vs ← y
      return v :: vs) := by
  intro ω
  refine (Eval.bind_ok (hA ω)).trans ((Eval.bind_ok (hM _)).trans ?_)
  simp only [inFront, Nat.add_assoc, List.append_assoc]
  rfl

theorem Evaluates.map {β : Type} {M : Making α} {x : Eval α} {f : α → β} {g : α → Eval β} (h : M.Evaluates x)
    (hg : ∀ a ω, g a ω = (.ok (f a), ω)) : (M.map f).Evaluates (x >>= g) := by
  intro ω
  refine (Eval.bind_ok (h ω)).trans ?_
  rw [hg]
  rfl

end Making

section

variable {ρ : Numbering} {P : Closure → Prop} {n n' : Nat} {v v' w w' : Value}
  {vs ws : List Value}

theorem Case.Like.builtin {c : Case} (hf : ρ.Fits n n') (hc : c.id < Builtins.count) : c.Like ρ c :=
  ⟨hf.builtin _ hc, rfl⟩

theorem Value.Stands.builtin {c : Case} (hf : ρ.Fits n n') (hc : c.id < Builtins.count) : c.value.Stands ρ P c.value := by
  unfold Case.value
  split
  · rename_i hzero
    exact ⟨.constant (.builtin hf hc) hzero, trivial⟩
  · rename_i hpos
    exact ⟨.constructor (.builtin hf hc) (Nat.pos_of_ne_zero hpos), trivial⟩

theorem Value.Stands.pair (hf : ρ.Fits n n') (h : v.Stands ρ P w) (hs : Value.Stands ρ P v' w') :
    (builtins.pair v v').Stands ρ P (builtins.pair w w') :=
  ⟨.record (.builtin hf (by decide)) (by decide) rfl (.cons h.like (.cons hs.like .nil)), h.every, hs.every, trivial⟩

theorem Value.Stands.list (hf : ρ.Fits n n') (h : AllStand ρ P vs ws) :
    (builtins.list vs).Stands ρ P (builtins.list ws) := by
  induction h with
  | nil => exact .builtin (c := builtins.empty) hf (by decide)
  | cons hv _ ih => exact .pair hf hv ih

end

/-- Where lists are the built-in ones, some code pushes what is made. -/
def Machine.Makes (host : Host) (m : Machine) (M : Making Value) (is k : List Instr) : Prop :=
  ∀ (σ : Store) (os : List Value) (line : Nat), (σ.root m.frame.closure.home).Standard →
    ∃ line', (m.resume σ os line is).Reaches host
      (m.resume { σ with nextIdentity := σ.nextIdentity + M.count } (M.here σ.nextIdentity :: os) line' k)

/-- Some code puts what is made in front of a list. -/
def Machine.MakesInFront (host : Host) (m : Machine) (M : Making (List Value)) (is k : List Instr) : Prop :=
  ∀ (σ : Store) (os : List Value) (line : Nat) (u : Value), (σ.root m.frame.closure.home).Standard →
    ∃ line', (m.resume σ (u :: os) line is).Reaches host
      (m.resume { σ with nextIdentity := σ.nextIdentity + M.count } ((M.here σ.nextIdentity).foldr builtins.pair u :: os)
        line' k)

namespace Machine

variable {host : Host} {m : Machine} {a : Activation} {t : Twin} {r : Rules}

theorem consAll_eq (hr : r.sugar = .builtIn) (line : Nat) (x : Value) : (ws : List Value) → (ω : World) →
    r.consAll a line ws x ω = (.ok (ws.foldr builtins.pair x), ω)
  | [], _ => rfl
  | w :: ws, ω => by
    refine (Eval.bind_ok (consAll_eq hr line x ws ω)).trans ?_
    unfold Rules.cons
    rw [hr]
    rfl

/-- Two instructions put a value in front of a list. -/
theorem reaches_pair {σ : Store} {v u : Value} {os : List Value} {line line' : Nat} {k : List Instr}
    (hσ : (σ.root m.frame.closure.home).Standard) :
    (m.resume σ (v :: u :: os) line (.mk line' (.loadName [consName]) :: .mk line' (.call 2) :: k)).Reaches host
      (m.resume σ (builtins.pair v u :: os) line' k) := by
  refine .head (step_resume.trans (perform_loadName_ok (hσ.value builtins.cons ?_))) (.of_step (step_resume.trans rfl))
  simp

theorem openGroup_nil (env : Env) (ω : World) : openGroup [] env ω = (.ok env, ω) := by
  have hw : ω.withCells (patternsNames []) = ω := by
    rw [World.withCells]
    simp [patternsNames, patternsLeaves]
  rw [openGroup, hw]
  rfl

/-- A value that one instruction pushes, with no number given out. -/
theorem exists_making_same {x : Value} {X : Eval Value} {s line : Nat} {op : Op} {k : List Instr}
    (hX : ∀ ω, X ω = (.ok x, ω)) (hx : ∀ t' : Twin, t'.Sound → t'.Alike x x)
    (hs : ∀ (σ : Store) (os : List Value), (σ.root m.frame.closure.home).Standard →
      (m.resume σ os line k).perform host op = .running (m.resume σ (x :: os) line k)) :
    ∃ M : Making Value, M.Fair ∧ M.Evaluates X ∧ M.Stands t s Twin.Alike ∧ m.Makes host M (.mk line op :: k) k :=
  ⟨.same x, Making.same_fair x, hX, fun t' _ _ ht _ _ _ => hx t' ht,
    fun σ os _ hσ => ⟨line, .of_step (step_resume.trans (hs σ os hσ))⟩⟩

theorem exists_making_builtin {c : Case} (hr : r.sugar = .builtIn)
    (hc : c ∈ [builtins.cons, builtins.empty, builtins.unit]) {s line : Nat} {k : List Instr} :
    ∃ M : Making Value, M.Fair ∧ M.Evaluates (a.readSugar r.sugar line c.name) ∧ M.Stands t s Twin.Alike ∧
      m.Makes host M (.mk line (.loadName [c.name]) :: k) k := by
  refine exists_making_same (x := c.value) (fun ω => ?_) (fun t' ht => .builtin ht.fits (id_of_mem_builtin hc))
    fun σ os hσ => perform_loadName_ok (hσ.value c hc)
  rw [hr]
  refine (Eval.bind_ok (x := Sugar.space .builtIn a) rfl).trans ?_
  rw [seed_standard.value c hc]
  rfl

section

variable {own : Nat → Prop} {l : Links} {env : Env}

mutual

/-- A function or a literal, or a list of these. -/
theorem exists_making (hr : r.sugar = .builtIn) (ha : m.Acts a) : (e : Expr) → {gs : List Group} → {b b' i j : Nat} →
    {allowTail : Bool} → {is k : List Instr} → e.isPure = true → t.Ready m.frame.scope own gs env b b' i j →
    ExprLinks l e own gs b b' → ExprCode l e m.frame.closure.code allowTail i j is k →
    ∃ M : Making Value, M.Fair ∧ M.Evaluates (r.expr a env e) ∧ M.Stands t m.frame.scope Twin.Alike ∧
      m.Makes host M is k
  | .literal value line, gs, b, b', i, j, allowTail, is, k, hp, h, hl, hc => by
    unfold ExprCode at hc
    obtain ⟨-, rfl⟩ := hc
    unfold Rules.expr
    cases value with
    | number x => exact exists_making_same (fun _ => rfl) (fun _ _ => .number x) fun _ _ _ => rfl
    | text s => exact exists_making_same (fun _ => rfl) (fun _ _ => .text s) fun _ _ _ => rfl
    | unit => exact exists_making_builtin (c := builtins.unit) hr (by simp)
    | emptyList => exact exists_making_builtin (c := builtins.empty) hr (by simp)
  | .function params body line, gs, b, b', i, j, allowTail, is, k, hp, h, hl, hc => by
    obtain ⟨havoid, own', hl⟩ := exprLinks_function.mp hl
    unfold ExprCode at hc
    obtain ⟨unit, start, hpc, hbc, rfl⟩ := hc
    let M : Making Value :=
      { count := 1
        pairs := fun p q => p = q ∧ p < 1
        here := fun n => .function
          { id := n, code := unit, scope := m.frame.scope, home := m.frame.closure.home, arity := params.length,
            module := m.frame.closure.module, line }
        there := fun n => .function
          { id := n, code := .empty, scope := 0, home := a.self.home, arity := params.length, module := a.self.module,
            line }
        lambdas := fun n => [(n, { params, body, env })] }
    refine ⟨M, ⟨.same 1, by simp [M]⟩, fun _ => rfl, fun t' n n' ht ho hn hf => ?_,
      fun σ os line' _ => ⟨line, .of_step (step_resume.trans rfl)⟩⟩
    exact function_alike ha h havoid hl hpc hbc ho (hn 0 0 ⟨rfl, Nat.one_pos⟩) (hf _ _ (by simp [M]))
  | .list elements line, gs, b, b', i, j, allowTail, is, k, hp, h, hl, hc => by
    unfold Expr.isPure at hp
    unfold ExprLinks at hl
    unfold ExprCode at hc
    rw [if_pos hp] at hc
    obtain ⟨start, rfl, hc⟩ := hc
    obtain ⟨M, hfair, hev, hst, hmk⟩ := exists_making_all hr ha elements hp h hl hc
    refine ⟨M.map builtins.list, ⟨hfair.pairing, hfair.fresh⟩, ?_, ?_, ?_⟩
    · unfold Rules.expr
      rw [if_neg (by rw [hr]; exact fun h => nomatch h.1)]
      refine hev.map fun vs ω => ?_
      rw [hr]
      exact (Eval.bind_ok (x := a.readSugar .builtIn line emptyName) rfl).trans (consAll_eq hr line _ vs ω)
    · exact fun t' n n' ht ho hp hf => .list ht.fits (hst t' n n' ht ho hp hf)
    · intro σ os line' hσ
      obtain ⟨line₂, hreach⟩ := hmk σ os line builtins.emptyList hσ
      exact ⟨line₂, .head (step_resume.trans (perform_loadName_ok (hσ.value builtins.empty (by simp)))) hreach⟩
  | .call _ _ _, _, _, _, _, _, _, _, _, hp, _, _, _ | .name _, _, _, _, _, _, _, _, _, hp, _, _, _
  | .self _, _, _, _, _, _, _, _, _, hp, _, _, _ => by
    unfold Expr.isPure at hp
    cases hp

theorem exists_making_all (hr : r.sugar = .builtIn) (ha : m.Acts a) : (bs : List Block) → {gs : List Group} →
    {b b' i j line : Nat} → {is k : List Instr} → allPure bs = true → t.Ready m.frame.scope own gs env b b' i j →
    ElementsLinks l bs own gs b b' → PureCode l bs m.frame.closure.code line i j is k →
    ∃ M : Making (List Value), M.Fair ∧ M.Evaluates (r.blocks a env bs) ∧ M.Stands t m.frame.scope Twin.AllAlike ∧
      m.MakesInFront host M is k
  | [], gs, b, b', i, j, line, is, k, hp, h, hl, hc => by
    unfold PureCode at hc
    obtain ⟨-, rfl⟩ := hc
    unfold Rules.blocks
    exact ⟨.same [], Making.same_fair [], fun _ => rfl, fun _ _ _ _ _ _ _ => .nil, fun σ os line' u _ => ⟨line', .refl _⟩⟩
  | .result e :: bs, gs, b, b', i, j, line, is, k, hp, h, hl, hc => by
    unfold allPure Block.isPure at hp
    obtain ⟨hpe, hps⟩ := (Bool.and_eq_true _ _).mp hp
    unfold ElementsLinks at hl
    obtain ⟨g, c, c', hg, -, hle, hls⟩ := hl
    unfold BodyLinks at hle
    unfold PureCode at hc
    obtain ⟨mid, mids, hcs, hce⟩ := hc
    unfold BlockCode at hce
    have hnone : ∀ name, g.lookup name = none := by
      intro name
      cases hn : g.lookup name with
      | none => rfl
      | some slot =>
        obtain ⟨-, -, -, x, hx, -⟩ := hg.entry name slot hn
        cases hx
    have hle' := (ExprLinks.local e hle).1
    have hls' := (ElementsLinks.local bs hls).1
    have hci := ExprCode.slots_le e hce
    have hcj := PureCode.slots_le bs hcs
    obtain ⟨A, hfair, hev, hst, hmk⟩ := exists_making hr ha e hpe
      ((h.silent hnone).sub hg.le hls' hcj (Nat.le_refl j)) hle hce
    obtain ⟨M, hfairs, hevs, hsts, hmks⟩ := exists_making_all hr ha bs hps
      (h.sub (Nat.le_trans hg.le hle') (Nat.le_refl b') (Nat.le_refl i) hci) hls hcs
    refine ⟨A.inFront M, Making.inFront_fair hfair hfairs, ?_, Making.inFront_stands hfair hfairs hst hsts, ?_⟩
    · intro ω
      unfold Rules.blocks
      exact (Eval.bind_ok (openGroup_nil env ω)).trans (Making.inFront_evaluates hev hevs ω)
    · intro σ os line' u hσ
      obtain ⟨line₁, hreach₁⟩ := hmks σ os line' u hσ
      obtain ⟨line₂, hreach₂⟩ := hmk { σ with nextIdentity := σ.nextIdentity + M.count }
        ((M.here σ.nextIdentity).foldr builtins.pair u :: os) line₁ hσ
      refine ⟨line, hreach₁.trans (hreach₂.trans ?_)⟩
      simp only [Making.inFront, List.foldr_cons, Nat.add_comm A.count, ← Nat.add_assoc]
      exact reaches_pair hσ
  | .bind _ _ _ _ :: bs, gs, b, b', i, j, line, is, k, hp, h, hl, hc => by
    unfold allPure Block.isPure at hp
    cases hp

end

/-- Where lists are the built-in ones, a run makes what an evaluation makes, one for one. -/
theorem follows_pure {host : Host} {sugar : Sugar} {level : Nat} {tail : Option (List Value)} {uses : Nat → Prop} {os : List Value}
    (hr : r.sugar = sugar) (hs : sugar = .builtIn) (ha : m.Acts a) {e : Expr} {gs : List Group} {b b' i j : Nat} {allowTail : Bool}
    {is k : List Instr} (hp : e.isPure = true) (h : t.Ready m.frame.scope own gs env b b' i j)
    (hl : ExprLinks l e own gs b b') (hc : ExprCode l e m.frame.closure.code allowTail i j is k) :
    m.Follows host sugar level tail t uses os is (r.expr a env e) (Twin.Pushes os) k := by
  subst hs
  intro line htrust
  obtain ⟨M, hfair, hev, hst, hmk⟩ := exists_making hr ha e hp h hl hc
  have ht := h.sound
  have hfresh := hfair.fresh t.world.nextIdentity
  have ho : ∀ uses, t.Onto m.frame.scope uses (t.advance M.count M.pairs (M.lambdas t.world.nextIdentity)) :=
    fun _ => Twin.advance_onto ht fun e he => (hfresh e he).1
  have ht' : (t.advance M.count M.pairs (M.lambdas t.world.nextIdentity)).Sound :=
    Twin.advance_sound ht hfair.pairing hfresh
  obtain ⟨line', hreach⟩ := hmk t.store os line (resume_home ▸ htrust.standard)
  rw [hev]
  refine ⟨_, _, line', rfl, ht', ho uses, ⟨_, rfl, hst _ _ _ ht' (ho _) (fun p q hpq => .inr ⟨p, q, hpq, rfl, rfl⟩)
    fun id f hf => ?_⟩, hreach⟩
  simp only [Twin.advance, List.lookup_append, hf, Option.some_or]

end

end Machine

end MatchLang
