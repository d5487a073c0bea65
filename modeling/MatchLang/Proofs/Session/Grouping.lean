import MatchLang.Proofs.Session.Assembled

/-! Arguments that come in groups. A call with fewer arguments than are missing keeps them with the callee; the call
that brings the last of them is a call with all of them, in order. A machine that makes the calls one after another
differs from one that makes a single call by the numbers of the partial calls in between, and by nothing else. -/

namespace MatchLang

/-- What a callee becomes by one group of its arguments after another. -/
def Value.held (id : Nat) (callee : Value) : List (List Value) → Value
  | [] => callee
  | group :: groups => Value.held (id + 1) (.partialCall id callee group) groups

/-- About to make calls with these numbers of arguments, one after another. -/
def Machine.toCall (m : Machine) (line : Nat) (argcs : List Nat) (k : List Instr) : Machine :=
  m.resume m.store m.operands line (argcs.map (fun n => .mk line (.call n)) ++ k)

/-- Every number that has been given out, for itself. -/
def Store.numbering (σ : Store) : Numbering :=
  fun i j => i = j ∧ i < σ.nextIdentity

section

variable {callee : Value} {id n : Nat} {groups : List (List Value)} {os : List Value}

theorem Value.arity?_held (h : callee.arity? = some n) :
    (callee.held id groups).arity? = some (n - groups.flatten.length) := by
  induction groups generalizing id callee n with
  | nil => exact h
  | cons group groups ih =>
    have hp : (Value.partialCall id callee group).arity? = some (n - group.length) := by
      rw [Value.arity?, h]
      rfl
    rw [Value.held, ih hp, List.flatten_cons, List.length_append, Nat.sub_add_eq]

/-- The groups come before the operands, the first one first. -/
theorem applyFull_held : applyFull (callee.held id groups) os = applyFull callee (groups.flatten ++ os) := by
  induction groups generalizing id callee with
  | nil => rfl
  | cons group groups ih => rw [Value.held, ih, applyFull, List.flatten_cons, List.append_assoc]

end

namespace Machine

variable {host : Host} {m : Machine} {σ : Store} {callee : Value} {n line fuel argc : Nat}
  {groups : List (List Value)} {os args ops : List Value} {argcs : List Nat} {k : List Instr}

theorem step_toCall : (m.toCall line (argc :: argcs) k).step host =
    (m.toCall line argcs k).call host argc :=
  rfl

theorem call_few (ho : m.operands = callee :: (args ++ os)) (hn : callee.arity? = some n)
    (hl : args.length < n) : m.call host args.length =
      .running ({ m with store := m.store.skip 1 }.withOperands
        (.partialCall m.store.nextIdentity callee args :: os)) := by
  unfold Machine.call
  rw [ho]
  simp only [hn, if_neg (Nat.ne_of_lt hl), if_pos hl]
  unfold Machine.hold
  rw [takeOperands_append]
  rfl

theorem call_all (ho : m.operands = callee :: os) (hn : callee.arity? = some n) :
    m.call host n = m.apply host callee os := by
  unfold Machine.call
  rw [ho]
  simp only [hn, if_true]

theorem call_many (ho : m.operands = callee :: os) (hn : callee.arity? = some n) (hl : n < argc) :
    m.call host argc = .raised m (.tooManyArguments callee.display) := by
  unfold Machine.call
  rw [ho]
  simp only [hn, if_neg (Nat.ne_of_gt hl), if_neg (Nat.not_lt_of_gt hl)]
  rfl

/-- Every group but the last leaves some argument missing, and is kept. -/
theorem walk_toCall (ho : m.operands = callee :: (groups.flatten ++ os)) (hn : callee.arity? = some n)
    (hl : groups ≠ [] → groups.flatten.length < n) :
    (m.toCall line (groups.map List.length ++ argcs) k).walk host groups.length =
      some ((m.resume (m.store.skip groups.length)
        (callee.held m.store.nextIdentity groups :: os) line []).toCall line argcs k) := by
  induction groups generalizing m callee n with
  | nil =>
    have hm : m.toCall line argcs k = (m.resume (m.store.skip 0) (callee :: os) line []).toCall line argcs k := by
      unfold Machine.toCall
      rw [ho]
      rfl
    exact congrArg some hm
  | cons group groups ih =>
    have hlen := hl (List.cons_ne_nil _ _)
    rw [List.flatten_cons, List.length_append] at hlen
    have hgroup : group.length < n := by omega
    have hp : (Value.partialCall m.store.nextIdentity callee group).arity? = some (n - group.length) := by
      rw [Value.arity?, hn]
      rfl
    have hops : m.operands = callee :: (group ++ (groups.flatten ++ os)) := by
      rw [ho, List.flatten_cons, List.append_assoc]
    let m₁ := m.resume (m.store.skip 1)
      (.partialCall m.store.nextIdentity callee group :: (groups.flatten ++ os)) line []
    have hstep : (m.toCall line ((group :: groups).map List.length ++ argcs) k).step host =
        .running (m₁.toCall line (groups.map List.length ++ argcs) k) :=
      call_few hops hn hgroup
    have hwalk := ih (m := m₁) rfl hp fun _ => by omega
    have hskip : (m.store.skip 1).skip groups.length = m.store.skip (groups.length + 1) := by
      simp only [Store.skip, Nat.add_assoc, Nat.add_comm 1]
    rw [List.length_cons, walk_of_step hstep hwalk]
    simp only [m₁, resume_store, hskip]
    rfl

/-- It does not matter what the operands were, once they are taken. -/
theorem apply_follow : ((m.withOperands ops).apply host callee os).follow host fuel =
    (m.apply host callee os).follow host fuel := by
  have hfault : ∀ f, (m.withOperands ops).failure f = m.failure f := failure_congr rfl rfl rfl
  unfold Machine.apply
  cases applyFull callee os with
  | enter c os => rfl
  | build c fields rest => rfl
  | compute f args rest =>
    have hσ : (m.withOperands ops).store = m.store := rfl
    simp only [hσ]
    cases f.run args m.store.console with
    | ok r => rfl
    | error fault => exact congrArg (Ending.failed m.store) (hfault fault)
  | fault f => exact congrArg (Ending.failed m.store) (hfault f)

theorem run_succ : m.run host (fuel + 1) = (m.step host).follow host fuel := by
  rw [Machine.run]
  cases m.step host <;> rfl

/-- Wherever the last group comes, the call is that of the callee with all arguments. -/
theorem call_held {id : Nat} (ho : m.operands = callee.held id groups :: (args ++ os))
    (hn : callee.arity? = some (groups.flatten.length + args.length)) :
    (m.call host args.length).follow host fuel =
      ((m.withOperands (callee :: (groups.flatten ++ (args ++ os)))).call host
        (groups.flatten.length + args.length)).follow host fuel := by
  have hheld : (callee.held id groups).arity? = some args.length := by
    rw [Value.arity?_held hn, Nat.add_sub_cancel_left]
  have happly : m.apply host (callee.held id groups) (args ++ os) =
      m.apply host callee (groups.flatten ++ (args ++ os)) := by
    rw [Machine.apply, Machine.apply, applyFull_held]
  rw [call_all ho hheld, call_all rfl hn, apply_follow, happly]

/-- Supplying the arguments in groups is one call, after as many numbers have been given out. -/
theorem run_groups (ho : m.operands = callee :: (groups.flatten ++ (args ++ os)))
    (hn : callee.arity? = some (groups.flatten.length + args.length)) (hl : groups ≠ [] → args ≠ []) :
    (m.toCall line (groups.map List.length ++ [args.length]) k).run host (groups.length + (fuel + 1)) =
      ((m.updateStore (·.skip groups.length)).toCall line
        [groups.flatten.length + args.length] k).run host (fuel + 1) := by
  have hmissing : groups ≠ [] → groups.flatten.length < groups.flatten.length + args.length :=
    fun hg => Nat.lt_add_of_pos_right (List.length_pos_of_ne_nil (hl hg))
  have hops : (m.updateStore (·.skip groups.length)).operands =
      callee :: (groups.flatten ++ (args ++ os)) := ho
  rw [run_add (walk_toCall ho hn hmissing), run_succ, step_toCall, call_held rfl hn, run_succ,
    step_toCall, Machine.toCall, Machine.toCall, hops]
  rfl

/-- More arguments than are missing are refused after any number of groups. -/
theorem run_too_many (ho : m.operands = callee :: (groups.flatten ++ os)) (hn : callee.arity? = some n)
    (hl : groups ≠ [] → groups.flatten.length < n) (hmore : n < groups.flatten.length + argc) :
    (m.toCall line (groups.map List.length ++ [argc]) k).run host (groups.length + (fuel + 1)) =
      .failed (m.store.skip groups.length) ((m.toCall line [] k).failure
        (.tooManyArguments (callee.held m.store.nextIdentity groups).display)) := by
  have hheld : (callee.held m.store.nextIdentity groups).arity? = some (n - groups.flatten.length) :=
    Value.arity?_held hn
  have hle : groups.flatten.length ≤ n := by
    by_cases hg : groups = []
    · rw [hg]
      exact Nat.zero_le n
    · exact Nat.le_of_lt (hl hg)
  have hmany : n - groups.flatten.length < argc := by omega
  rw [run_add (walk_toCall ho hn hl), run_succ, step_toCall, call_many rfl hheld hmany]
  refine congrArg (Ending.failed _) ?_
  obtain ⟨σ, task, waiting⟩ := m
  cases waiting <;> rfl

end Machine

section

variable {ρ : Numbering} {m : Machine}

theorem Store.Like.le_numbering {σ : Store} (h : σ.Like ρ .none σ) : ρ.Le σ.numbering :=
  fun i j hij => ⟨h.pairs i j hij, (h.fits.lt i j hij).1⟩

theorem Store.Like.skip {σ : Store} (h : σ.Like ρ .none σ) (k : Nat) :
    σ.Like σ.numbering .renumbered (σ.skip k) where
  fits :=
    { lt := by
        rintro i j ⟨rfl, hi⟩
        exact ⟨hi, Nat.lt_add_right k hi⟩
      iff := by
        rintro i j i' j' ⟨rfl, _⟩ ⟨rfl, _⟩
        exact Iff.rfl
      builtin := fun i hi => ⟨rfl, (h.fits.lt i i (h.fits.builtin i hi)).1⟩ }
  pairs _ _ _ := trivial
  next := trivial
  scopes := rfl
  parents _ := rfl
  slots t n _ := by
    obtain hno | ⟨v, v', h₁, h₂, hv⟩ := h.slots t n fun _ => id
    · exact .inl hno
    · exact .inr ⟨v, v', h₁, h₂, hv.mono h.le_numbering v⟩
  held _ _ hn := nomatch hn
  roots := rfl
  root r := (h.root r).mono h.le_numbering
  modules := rfl
  nextSlot := rfl
  console := rfl

theorem Machine.Like.skip (h : m.Like ρ .none m) (k : Nat) :
    m.Like m.store.numbering .renumbered (m.updateStore (·.skip k)) := by
  have hle := h.store.le_numbering
  have hframe : ∀ {f g : Frame}, f.Alike ρ .none g → f.Alike m.store.numbering .renumbered g :=
    fun hf => ⟨hf.closure.mono hle, hf.scope, hf.line, hf.rest, trivial⟩
  have htask : ∀ {t u : Task}, t.Like ρ .none u → t.Like m.store.numbering .renumbered u :=
    fun ht => ⟨ht.module, ht.root, ht.operands.mono hle _, ht.frames.imp fun _ _ => hframe⟩
  exact ⟨h.store.skip k, htask h.task, h.waiting.imp fun _ _ hs => ⟨htask hs.task, hs.delivery⟩⟩

end

section

variable {m : Machine} {ws : List Workspace} {callee : Value} {groups : List (List Value)}
  {last rest : List Value} {total : Nat}

/-- Arguments that are supplied in groups, each but the last with some argument still missing: the run is that of
one call with all of them, but for the numbers of the partial calls in between. After every later step the
operands, the frames and the output are the same, and so is the result or the failure. With more arguments
than are missing the last call fails, and nothing is applied. -/
theorem calls_in_groups_are_one_call (ha : Moment.Arises ⟨.running m, ws⟩)
    (ho : m.operands = callee :: (groups.flatten ++ (last ++ rest))) (hn : callee.arity? = some total)
    (hl : groups ≠ [] → groups.flatten.length < total) (host : Host) (fuel line : Nat) (k : List Instr) :
    (groups.flatten.length + last.length = total →
      ∃ ρ, m.store.numbering.Le ρ ∧
        ((m.toCall line [total] k).run host (fuel + 1)).Like ρ .renumbered
          ((m.toCall line (groups.map List.length ++ [last.length]) k).run host
            (groups.length + (fuel + 1)))) ∧
    (total < groups.flatten.length + last.length →
      (m.toCall line (groups.map List.length ++ [last.length]) k).run host (groups.length + (fuel + 1)) =
        .failed (m.store.skip groups.length) ((m.toCall line [] k).failure
          (.tooManyArguments (callee.held m.store.nextIdentity groups).display))) := by
  refine ⟨?_, Machine.run_too_many ho hn hl⟩
  rintro rfl
  have hlast : groups ≠ [] → last ≠ [] := by
    rintro hg rfl
    exact Nat.lt_irrefl _ (hl hg)
  obtain ⟨ρ, hsane⟩ := ha.sane
  cases hsane with
  | running hm =>
    have hskip := hm.skip groups.length
    rw [Machine.run_groups ho hn hlast]
    exact (hskip.resume (.refl _) hskip.store hskip.task.operands trivial).run host (fuel + 1)
      fun _ => trivial

end

def pairCode : Code :=
  .mk [.mk 1 (.loadName ["Empty"]), .mk 1 (.loadText "head"), .mk 1 (.loadName ["::"])] []

/-- No argument, the head, and the tail. -/
theorem pair_in_three_calls : ∃ m, Moment.Arises ⟨.running m, []⟩ ∧
    m.operands = [.constructor builtins.cons, .text "head", builtins.emptyList] ∧
    ∀ host fuel, ∃ ρ, m.store.numbering.Le ρ ∧
      ((m.toCall 1 [2] []).run host (fuel + 1)).Like ρ .renumbered
        ((m.toCall 1 [0, 1, 1] []).run host (2 + (fuel + 1))) := by
  have hstart : Moment.Arises ⟨.running (codeMachine pairCode []), []⟩ :=
    ⟨.deaf, .single (.begins false "main" pairCode)⟩
  have hw : ∃ m, (codeMachine pairCode []).walk bareHost 3 = some m ∧
      m.operands = [.constructor builtins.cons, .text "head", builtins.emptyList] := ⟨_, rfl, rfl⟩
  obtain ⟨m, hw, ho⟩ := hw
  have ha : Moment.Arises ⟨.running m, []⟩ := hstart.walk hw
  have hsplit : m.operands = .constructor builtins.cons ::
      ([[], [.text "head"]].flatten ++ ([builtins.emptyList] ++ [])) := ho
  have hn : (Value.constructor builtins.cons).arity? = some 2 := rfl
  exact ⟨m, ha, ho, fun host fuel =>
    (calls_in_groups_are_one_call ha hsplit hn (fun _ => by decide) host fuel 1 []).1 rfl⟩

end MatchLang
