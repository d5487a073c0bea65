import MatchLang.Proofs.Simulation.Binding

/-! Calls. What a callee is applied to is the same on both sides; a function that begins runs in a frame of its own, and
what it comes to is what the evaluation of its body comes to. -/

namespace MatchLang

/-- Functions that are entered: a run that has just begun one comes to what the evaluation of it comes to, back in the
frame of the caller. -/
def EnterFits (host : Host) (sugar : Sugar) (level : Nat) (enter : (depth : Nat) → Closure → List Value → Eval Value) :
    Prop :=
  ∀ (m : Machine) (a : Activation) (t : Twin) (os : List Value) (k : List Instr) (line : Nat) (c d : Closure)
    (vs ws : List Value), m.Acts a → t.Sound → c.Stands t.numbers t.Made d → t.AllAlike vs ws → vs.length = c.arity →
    ((m.resume t.store (vs ++ os) line k).pushFrame c).Trusted host sugar →
    ((m.resume t.store (vs ++ os) line k).pushFrame c).Tracks host level none m t Twin.Unused (Twin.Pushes os) k
      (a.calling line (enter (a.depth + 1) d ws) t.world)

/-- The rules of an evaluation are those of the runs under a host. -/
structure Rules.Fit (r : Rules) (host : Host) (sugar : Sugar) (level : Nat) : Prop where
  same : r.sugar = sugar
  limit : r.callLimit = host.callLimit
  enters : EnterFits host sugar level r.enter

namespace Machine

variable {host : Host} {sugar : Sugar} {level : Nat} {tail : Option (List Value)} {m : Machine} {a : Activation}
  {t : Twin} {uses : Nat → Prop} {os os' : List Value} {k : List Instr} {line : Nat} {v w : Value}
  {vs ws : List Value} {r : Rules} {c d : Closure}

/-- Nobody but the function itself asks for its restart. -/
theorem Tracks.anyTail {α : Type} {start : Machine} {post : Twin → α → List Value → Prop} {x : Except Halt α × World}
    (h : start.Tracks host level none m t uses post k x) : start.Tracks host level tail m t uses post k x := by
  match x, h with
  | (.ok _, _), h => exact h
  | (.error (.fault _ _), _), h => exact h
  | (.error (.restart _), _), ⟨_, _, _, _, _, _, hb, _⟩ => cases hb
  | (.error .cut, _), h => exact h

/-- One step is one step more. -/
theorem Tracks.of_step {α : Type} {start m' : Machine} {post : Twin → α → List Value → Prop} {x : Except Halt α × World}
    (hs : start.step host = .running m') (h : m'.Tracks host level tail m t uses post k x) :
    start.Tracks host (level + 1) tail m t uses post k x := by
  match x, h with
  | (.ok _, _), h => exact Tracks.of_reaches (.of_step hs) h
  | (.error (.fault _ _), _), h => exact Tracks.of_reaches (.of_step hs) h
  | (.error (.restart _), _), h => exact Tracks.of_reaches (.of_step hs) h
  | (.error .cut, _), ⟨m₁, hw⟩ => exact ⟨m₁, walk_of_step hs hw⟩

/-- A function begins, if calls do not nest too deep. -/
theorem follows_begin (hf : r.Fit host sugar level) (ha : m.Acts a) (ht : t.Sound) {op : Op}
    (hc : c.Stands t.numbers t.Made d) (hall : t.AllAlike vs ws) (hlen : vs.length = c.arity)
    (hs : (m.resume t.store os' line k).perform host op = (m.resume t.store (vs ++ os) line k).enter host c) :
    m.Follows host sugar (level + 1) tail t uses os' (.mk line op :: k) (r.begin a line d ws) (Twin.Pushes os) k := by
  have hstep : ∀ line', (m.resume t.store os' line' (.mk line op :: k)).step host = _ := fun _ => step_resume.trans hs
  have hgoes : (∀ line', (m.resume t.store os' line' (.mk line op :: k)).step host =
        .running ((m.resume t.store (vs ++ os) line k).pushFrame c)) →
      m.Follows host sugar (level + 1) tail t uses os' (.mk line op :: k)
        (a.calling line (r.enter (a.depth + 1) d ws)) (Twin.Pushes os) k := by
    intro hrun line' htrust
    refine .of_step (hrun line') (Tracks.anyTail (Tracks.mono (fun _ => False.elim) ?_))
    exact hf.enters m a t os k line c d vs ws ha ht hc hall hlen (htrust.reaches (.of_step (hrun line')))
  unfold Rules.begin
  unfold enter at hstep hs
  rw [hf.limit]
  cases hl : host.callLimit with
  | none =>
    simp only [hl] at hstep
    exact hgoes hstep
  | some limit =>
    simp only [hl, resume_depth, ha.depth] at hstep hs
    by_cases hd : limit ≤ a.depth
    · simp only [if_pos hd] at hs ⊢
      exact .fault ha ht rfl hs
    · simp only [if_neg hd] at hstep ⊢
      exact hgoes hstep

theorem compute_eq {f : Native} {args : List Value} {ω : World} :
    Rules.compute a line f args ω =
      match f.run args ω.console with
      | .ok (v, console) => (.ok v, { ω with console })
      | .error e => (.error (.fault e [a.entry line]), ω) := by
  refine (Eval.bind_ok (x := Eval.look World.console) rfl).trans ?_
  cases f.run args ω.console <;> rfl

/-- A call with exactly the arguments that are wanted. -/
theorem follows_apply (hf : r.Fit host sugar level) (ha : m.Acts a) (ht : t.Sound) {op : Op} (hv : t.Alike v w)
    (hall : t.AllAlike vs ws) (hn : v.arity? = some vs.length)
    (hs : (m.resume t.store os' line k).perform host op = (m.resume t.store os' line k).apply host v (vs ++ os)) :
    m.Follows host sugar (level + 1) tail t uses os' (.mk line op :: k) (r.apply a line w ws) (Twin.Pushes os) k := by
  have happ := applyFull_stands os hv hall hn
  unfold Rules.apply
  unfold apply at hs
  generalize applyFull v (vs ++ os) = app at happ hs
  generalize applyFull w ws = app' at happ
  cases happ with
  | enter hc hargs hlen => exact follows_begin hf ha ht hc hargs hlen hs
  | build hb => exact .step rfl ht (.refl _ _ _) ⟨_, rfl, hb⟩ hs
  | compute f hargs =>
    refine .concord ha ht (Native.run_stands (f := f) ht.fits hargs t.store.console) (fun res res' hres hres' hlike => ?_)
      (fun e he => ?_) fun e he => ?_
    · simp only [resume_store, hres] at hs
      obtain ⟨v, console⟩ := res
      obtain ⟨w, console'⟩ := res'
      obtain ⟨hvw, rfl⟩ := hlike
      have ho : t.Onto m.frame.scope uses (t.setConsole console) := Twin.setConsole_onto
      refine .step (b := w) ?_ (Twin.setConsole_sound ht) ho ⟨v, rfl, Twin.Alike.onto hvw ht ho⟩ hs
      refine compute_eq.trans ?_
      rw [← ht.console, hres']
      rfl
    · refine compute_eq.trans ?_
      rw [← ht.console, he]
    · simp only [resume_store, he] at hs
      exact ⟨_, _, hs⟩

/-- With too few arguments a callee waits for the others. -/
theorem follows_hold (ht : t.Sound) {op : Op} (hv : t.Alike v w) (hall : t.AllAlike vs ws) {arity : Nat}
    (hn : v.arity? = some arity) (hlt : vs.length < arity)
    (hs : (m.resume t.store os' line k).perform host op = (m.resume t.store os' line k).hold v vs.length (vs ++ os)) :
    m.Follows host sugar level tail t uses os' (.mk line op :: k)
      (do return .partialCall (← newNumber) w ws) (Twin.Pushes os) k := by
  have ho : t.Onto m.frame.scope uses (t.advance 1 (fun p q => p = q ∧ p < 1) []) := Twin.advance_onto ht (by simp)
  unfold hold at hs
  rw [takeOperands_append] at hs
  refine .step rfl (Twin.advance_sound ht (.same 1) (by simp)) ho ⟨_, rfl, ?_⟩ hs
  exact .partialCall (.inr ⟨0, 0, ⟨rfl, Nat.one_pos⟩, rfl, rfl⟩) (Twin.Alike.onto hv ht ho)
    (Twin.AllAlike.onto hall ht ho) hn hlt

section

variable {l : Links} {own own' : Nat → Prop} {gs : List Group} {env : Env} {b b' i j n n' : Nat} {params : List Pattern}
  {body : Block} {unit : Code} {start : List Instr} {t' : Twin}

/-- A closure and the function that it was made beside. -/
theorem function_alike (ha : m.Acts a) (h : t.Ready m.frame.scope own gs env b b' i j) (havoid : Avoids own b b')
    (hl : FunctionLinks l params body own' gs b b') (hp : PatternsCode l none params line unit.instrs start)
    (hb : BlockCode l body unit true i j start []) {s : Nat} (ho : t.Onto s uses t') (hn : t'.numbers n n')
    (hf : t'.world.lambdas.lookup n' = some { params, body, env }) :
    t'.Alike
      (.function
        { id := n, code := unit, scope := m.frame.scope, home := m.frame.closure.home, arity := params.length,
          module := m.frame.closure.module, line })
      (.function
        { id := n', code := .empty, scope := 0, home := a.self.home, arity := params.length, module := a.self.module,
          line }) := by
  have ht := h.sound
  refine .function ⟨⟨hn, ?_, trivial⟩, n', _, hn, hf, rfl, Nat.lt_of_lt_of_le h.scope ho.scopes, ?_⟩
  · simp only [Closure.bare, Closure.recode, ha.home, ha.module]
  · exact ⟨l, own', gs, b, b', i, j, start, hp, hb, hl, h.reads.onto ht ho h.scope,
      (h.clear.vacant havoid).onto ht ho h.scope,
      fun n hn hn' => (ho.hidden n (ht.items n (h.items n hn hn'))).mpr (h.items n hn hn')⟩

/-- A function is made, with the names around it. -/
theorem follows_make (ha : m.Acts a) (h : t.Ready m.frame.scope own gs env b b' i j) (havoid : Avoids own b b')
    (hl : FunctionLinks l params body own' gs b b') (hp : PatternsCode l none params line unit.instrs start)
    (hb : BlockCode l body unit true i j start []) :
    m.Follows host sugar level tail t uses os (.mk line (.loadFunction unit params.length) :: k)
      (a.make env params body line) (Twin.Pushes os) k := by
  have ho : t.Onto m.frame.scope uses
      (t.advance 1 (fun p q => p = q ∧ p < 1) [(t.world.nextIdentity, { params, body, env })]) :=
    Twin.advance_onto h.sound (by simp)
  refine .step rfl (Twin.advance_sound h.sound (.same 1) (by simp)) ho ⟨_, rfl, ?_⟩ rfl
  exact function_alike (m := m) ha h havoid hl hp hb ho (.inr ⟨0, 0, ⟨rfl, Nat.one_pos⟩, rfl, rfl⟩) (by simp [Twin.advance])

end

/-- A call with any number of arguments. -/
theorem follows_call (hf : r.Fit host sugar level) (ha : m.Acts a) (ht : t.Sound) (hv : t.Alike v w)
    (hall : t.AllAlike vs ws) :
    m.Follows host sugar (level + 1) tail t uses (v :: (vs ++ os)) (.mk line (.call vs.length) :: k)
      (r.call a line w ws) (Twin.Pushes os) k := by
  have hlen : vs.length = ws.length := hall.length_eq
  have hs : (m.resume t.store (v :: (vs ++ os)) line k).perform host (.call vs.length) =
      (m.resume t.store (v :: (vs ++ os)) line k).call host vs.length := rfl
  unfold call at hs
  simp only [resume_operands] at hs
  unfold Rules.call
  rw [← hv.arity?_eq, ← hv.display_eq, ← hlen]
  cases hn : v.arity? with
  | none =>
    simp only [hn] at hs
    exact .fault ha ht rfl hs
  | some arity =>
    simp only [hn] at hs ⊢
    by_cases heq : vs.length = arity
    · simp only [if_pos heq] at hs ⊢
      exact follows_apply hf ha ht hv hall (heq ▸ hn) hs
    · simp only [if_neg heq] at hs ⊢
      by_cases hlt : vs.length < arity
      · simp only [if_pos hlt] at hs ⊢
        exact follows_hold ht hv hall hn hlt hs
      · simp only [if_neg hlt] at hs ⊢
        exact .fault ha ht rfl hs

end Machine

/-! Lists. An element is put in front of a list by a call of the list case; the elements wait for that in slots of
their own. -/

/-- The slots of items have the values of elements. -/
def Twin.Holds (t : Twin) (s : Nat) (slots : List Slot) (ws : List Value) : Prop :=
  List.Forall₂ (fun slot w => t.hidden slot.id ∧ ∃ v, t.store.slot? s slot.id = some v ∧ t.Alike v w) slots ws

theorem Twin.Holds.onto {t t' : Twin} {s : Nat} {uses : Nat → Prop} {slots : List Slot} {ws : List Value}
    (h : t.Holds s slots ws) (ht : t.Sound) (ho : t.Onto s uses t') (hs : s < t.store.scopes.size)
    (hu : ∀ slot ∈ slots, ¬ uses slot.id) : t'.Holds s slots ws := by
  induction h with
  | nil => exact .nil
  | @cons slot w slots ws h _ ih =>
    obtain ⟨hh, v, hv, hvw⟩ := h
    have hlt := ht.items _ hh
    refine .cons ⟨(ho.hidden _ hlt).mpr hh, v, ?_, Twin.Alike.onto hvw ht ho⟩ (ih fun sl hsl => hu sl (.tail _ hsl))
    rw [ho.kept s slot.id hs hlt hh fun _ => hu slot List.mem_cons_self]
    exact hv

/-- The item that has just been saved. -/
theorem Twin.saveItem_holds {t : Twin} {s : Nat} {slot : Slot} {v w : Value} (ht : t.Sound) (hs : s < t.store.scopes.size)
    (hh : t.hidden slot.id) (hv : t.Alike v w) : (t.saveItem s slot.id v).Holds s [slot] [w] := by
  have ho : t.Onto s (fun _ => True) (t.saveItem s slot.id v) := saveItem_onto trivial
  refine .cons ⟨hh, v, ?_, hv.onto ht ho⟩ .nil
  rw [saveItem, Store.slot?_save, if_pos ⟨rfl, rfl, hs⟩]

namespace Machine

variable {host : Host} {sugar : Sugar} {level : Nat} {tail : Option (List Value)} {m : Machine} {a : Activation}
  {t : Twin} {uses : Nat → Prop} {os : List Value} {k : List Instr} {line : Nat} {v w u x : Value} {r : Rules}

/-- A value is put in front of a list. -/
theorem follows_cons (hf : r.Fit host sugar level) (ha : m.Acts a) (ht : t.Sound) (hv : t.Alike v w) (hu : t.Alike u x) :
    m.Follows host sugar (level + 1) tail t uses (v :: u :: os)
      (.mk line (.loadName [consName]) :: .mk line (.call 2) :: k) (r.cons a line w x) (Twin.Pushes os) k := by
  unfold Rules.cons
  rw [hf.same]
  refine (follows_readSugar ha ht (c := builtins.cons) (by simp)).bind fun t' f os' ht' ho ⟨g, hos, hg⟩ => ?_
  subst hos
  have hargs : t'.AllAlike [v, u] [w, x] := .cons (Twin.Alike.onto hv ht ho) (.cons (Twin.Alike.onto hu ht ho) .nil)
  exact follows_call hf ha ht' hg hargs

/-- The values of the items are put in front of a list. -/
theorem follows_consAll (hf : r.Fit host sugar level) (ha : m.Acts a) (hs : m.frame.scope < t.store.scopes.size)
    (ht : t.Sound) (hu : t.Alike u x) {slots : List Slot} {ws : List Value} {k : List Instr}
    (hholds : t.Holds m.frame.scope slots ws) :
    m.Follows host sugar (level + 1) tail t Twin.Unused (u :: os) (consCode line slots ++ k)
      (r.consAll a line ws x) (Twin.Pushes os) k := by
  induction slots generalizing ws k with
  | nil =>
    cases hholds
    exact .pure ht ⟨u, rfl, hu⟩
  | cons slot slots ih =>
    cases ws with
    | nil => cases hholds
    | cons w ws =>
    obtain ⟨-, hall⟩ := List.forall₂_cons.mp hholds
    unfold consCode Rules.consAll
    rw [List.append_assoc]
    refine (ih hall).bind fun t' rest os' ht' ho hrest => ?_
    obtain ⟨u', rfl, hu'⟩ := hrest
    obtain ⟨⟨-, v, hv, hvw⟩, -⟩ := List.forall₂_cons.mp (hholds.onto ht ho hs fun _ _ => id)
    exact .head (.refl _ _ _) rfl (perform_loadLocal_some (Store.lookup_of_slot? hv)) (follows_cons hf ha ht' hvw hu')

end Machine

end MatchLang
