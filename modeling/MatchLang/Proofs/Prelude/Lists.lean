import MatchLang.Proofs.Prelude.Functions
import MatchLang.Proofs.Prelude.Loading

/-! The functions on lists of the prelude, as any module may call them: which applications they make, in which order,
and what they answer. -/

namespace MatchLang

namespace Script

/-- Apply a value to the accumulator and each element, and answer with the last accumulator. -/
def fold (f : Value) : Value → List Value → Script
  | acc, [] => .answer acc
  | acc, v :: vs => .apply f [acc, v] fun acc' => fold f acc' vs

/-- Apply a value to each element, and go on with the answers in order. -/
def map (f : Value) : List Value → (List Value → Script) → Script
  | [], k => k []
  | v :: vs, k => .apply f [v] fun w => map f vs fun ws => k (w :: ws)

/-- Apply a value to each element, and go on with those for which the answer was `True`, in order. -/
def filter (p : Value) : List Value → (List Value → Script) → Script
  | [], k => k []
  | v :: vs, k => .apply p [v] fun w => filter p vs fun ws => k (if w.isYes then v :: ws else ws)

end Script

/-- What the functions on lists should do with their arguments. -/
inductive Prelude.Scripted : String → List Value → Script → Prop where
  | fold (f acc : Value) (vs : List Value) : Scripted "fold" [f, acc, builtins.list vs] (.fold f acc vs)
  | map (f : Value) (vs : List Value) :
    Scripted "map" [f, builtins.list vs] (.map f vs fun ws => .answer (builtins.list ws))
  | filter (p : Value) (vs : List Value) :
    Scripted "filter" [p, builtins.list vs] (.filter p vs fun ws => .answer (builtins.list ws))
  | reverse (vs : List Value) : Scripted "reverse" [builtins.list vs] (.answer (builtins.list vs.reverse))
  | append (vs ws : List Value) :
    Scripted "append" [builtins.list vs, builtins.list ws] (.answer (builtins.list (vs ++ ws)))

section

variable {f p acc : Value} {vs : List Value}

theorem Script.through_fold :
    Script.through (fun acc v k => .apply f [acc, v] k) acc vs .answer = .fold f acc vs := by
  induction vs generalizing acc with
  | nil => rfl
  | cons v vs ih => exact congrArg (Script.apply f [acc, v]) (funext fun acc' => ih)

/-- The answers are put in front of those before, so that the last one comes first. -/
theorem Script.through_map (vs rs : List Value) (k : List Value → Script) :
    Script.through (fun rs v k => .apply f [v] fun w => k (w :: rs)) rs vs (fun rs => k rs.reverse) =
      .map f vs fun ws => k (rs.reverse ++ ws) := by
  induction vs generalizing rs with
  | nil => exact congrArg k (List.append_nil _).symm
  | cons v vs ih =>
    refine congrArg (Script.apply f [v]) (funext fun w => (ih (w :: rs)).trans ?_)
    simp only [List.reverse_cons, List.append_assoc, List.singleton_append]

theorem Script.through_filter (vs rs : List Value) (k : List Value → Script) :
    Script.through (fun kept v k => .apply p [v] fun w => k (if w.isYes then v :: kept else kept)) rs vs
        (fun rs => k rs.reverse) =
      .filter p vs fun ws => k (rs.reverse ++ ws) := by
  induction vs generalizing rs with
  | nil => exact congrArg k (List.append_nil _).symm
  | cons v vs ih =>
    refine congrArg (Script.apply p [v]) (funext fun w => (ih _).trans ?_)
    cases w.isYes with
    | true => simp only [if_true, List.reverse_cons, List.append_assoc, List.singleton_append]
    | false => rfl

end

section

open Moment

variable {host : Host} {a : Moment} {c : CallSite} {r n scope id : Nat} {s : Script} {args : List Value}
  {d : Definition} {name : String} {callee : Value}

/-- A function of the prelude is entered from outside. -/
theorem CallSite.Calls.enters (hc : c.Calls (.function (d.closure r scope id)) args)
    (hn : args.length = d.arity) (hl : c.Roomy host) :
    c.machine.step host = .running
      ((c.machine.calling c.line c.after (d.closure r scope id) c.machine.store.scopes.size).resume
        (c.machine.store.newScope (some scope)).2 (args ++ c.rest) d.slot.line d.code.instrs) := by
  have hroom : c.machine.HasRoom c (4 + 1) := ⟨Nat.le_refl _, Nat.le_refl _, rfl⟩
  have hmachine : c.machine = c.machine.resume c.machine.store
      (.function (d.closure r scope id) :: (args ++ c.rest)) c.machine.frame.line
      (.mk c.line (.call args.length) :: c.after) := by
    rw [← hc.operands, ← hc.rest]
    rfl
  rw [hmachine]
  exact Machine.step_calling hn hroom hl

/-- From its first instruction on, a function on lists does as it should. -/
theorem Prelude.Scripted.runs (hs : Prelude.Scripted name args s) (n : Nat) :
    ∃ d ∈ Prelude.listFunctions n, d.slot.name = name ∧ args.length = d.arity ∧
      ∀ {host c r scope id}, Prelude.Serving host c n r scope →
        s.Runs host c r (c.machine.calling c.line c.after (d.closure r scope id) c.machine.store.scopes.size)
          (c.machine.store.newScope (some scope)).2 (args ++ c.rest) d.code.instrs := by
  have hroom : ∀ {c : CallSite}, c.machine.HasRoom c 5 := ⟨Nat.le_refl _, Nat.le_refl _, rfl⟩
  have hreturns : ∀ {host : Host} {c : CallSite} {r sc : Nat} {f : Closure} {τ : Store} {v : Value}, f.home = r →
      c.machine.store.scopes.size ≤ sc →
      (Script.answer v).Runs host c r (c.machine.calling c.line c.after f sc) τ (v :: c.rest) [] :=
    fun hf hsc => .returns (hroom.serves hf hsc)
  cases hs with
  | fold f acc vs =>
    refine ⟨Prelude.fold n, by simp [listFunctions], rfl, rfl, fun {host c r scope id} hp => ?_⟩
    have hf : Does host c r 0 f (fun acc v k => .apply f [acc, v] k) (fun v => v) c.machine.store :=
      fun _ _ _ _ _ _ _ _ hb _ _ hk => .apply [_, _] hb fun w τ hτ _ => hk w τ hτ
    rw [← Script.through_fold]
    exact hp.fold_body (.refl _) (hroom.mono (by decide)) hf (fun _ _ _ _ hsc => hreturns rfl hsc) vs acc (.refl _)
  | map f vs =>
    refine ⟨Prelude.map n, by simp [listFunctions], rfl, rfl, fun hp => ?_⟩
    have hscript := Script.through_map (f := f) vs [] fun ws => .answer (builtins.list ws)
    simp only [List.reverse_nil, List.nil_append] at hscript
    rw [← hscript]
    exact hp.map_body (k := fun ws => .answer (builtins.list ws)) (.refl _) (hroom.mono (by decide)) fun _ _ _ =>
      hreturns rfl (Nat.le_refl _)
  | filter p vs =>
    refine ⟨Prelude.filter n, by simp [listFunctions], rfl, rfl, fun hp => ?_⟩
    have hscript := Script.through_filter (p := p) vs [] fun ws => .answer (builtins.list ws)
    simp only [List.reverse_nil, List.nil_append] at hscript
    rw [← hscript]
    exact hp.filter_body (k := fun ws => .answer (builtins.list ws)) (.refl _) hroom fun _ _ _ =>
      hreturns rfl (Nat.le_refl _)
  | reverse vs =>
    refine ⟨Prelude.reverse n, by simp [listFunctions], rfl, rfl, fun hp => ?_⟩
    exact hp.reverse_body (k := fun ws => .answer (builtins.list ws)) (.refl _) (hroom.mono (by decide))
      fun _ _ _ => hreturns rfl (Nat.le_refl _)
  | append vs ws =>
    refine ⟨Prelude.append n, by simp [listFunctions], rfl, rfl, fun hp => ?_⟩
    exact hp.append_body (k := fun ws => .answer (builtins.list ws)) (.refl _) (hroom.mono (by decide))
      fun _ _ _ => hreturns rfl (Nat.le_refl _)

/-- Wherever a function on lists is called with a list, it makes the applications that it should, one after another,
and answers as it should; the first of them that faults ends the call with its fault, and if one comes to no end so
does the call. In between it does nothing that is seen from outside, and it has at most five frames in front of
its caller, however long the list is. -/
theorem list_functions_do_as_scripted (ha : a.SparesPrelude) (hm : a.now = .running c.machine)
    (hr : a.store.module? preludeName = some r) (hf : (a.store.root r).valueAt? [] name = some callee)
    (hc : c.Calls callee args) (hs : Prelude.Scripted name args s) (hl : c.Roomy host)
    (o : Option Transition) : c.machine.ComesTo host o ↔ c.Enacts host r s o := by
  have hstore : a.store = c.machine.store := congrArg Transition.store hm
  obtain ⟨κ, h, hok⟩ := ha.occurs.ok.now
  rw [hm] at hok
  obtain ⟨κ', -, hok, -⟩ := hok
  obtain ⟨n, scope, sc, ds, hds, hlists, hbinds, hret⟩ := ha.guarded.loaded r hr
  obtain ⟨d, hd, rfl, hn, hruns⟩ := hs.runs n
  obtain ⟨id, -, hvalue⟩ := hbinds d (hds.lists d hd)
  obtain rfl : callee = .function (d.closure r scope id) := Option.some.inj (hf.symm.trans hvalue)
  have hserving : Prelude.Serving host c n r scope :=
    ⟨hl, hstore ▸ hlists, hstore ▸ hret.lt, fun e he => hstore ▸ hbinds e (hds.lists e he)⟩
  exact CallSite.enacts_iff ⟨κ', h, hok⟩ (hc.enters hn hl) (hruns hserving d.slot.line) o

end

open Moment

/-- The prelude is there, and calls may nest ten deep. -/
def preludeHost : Host :=
  { bareHost with withPrelude := true, callLimit := some 10 }

/-- A machine that is about to run the prelude, and after it some code. -/
def preludeMachine (code prelude : Code) (free next : Nat) : Machine :=
  let (task, store) := { Store.initial .deaf with nextSlot := free }.newTask "main" code
  ({ store, task, waiting := [] } : Machine).await .whole preludeName prelude next

/-- A program with the prelude, after some steps. The names of the prelude and its definitions are looked at first, so
that they need not be computed while it runs. -/
def behindPrelude (steps : Nat) : Except ParseError Program → Except RunError (Code × Nat) → Option Machine
  | .ok p, .ok (code, free) =>
    if p.namesAll then
      match p.compile false free with
      | .ok (prelude, next) =>
        if (readDefinitions prelude.instrs).isSome then
          (preludeMachine code prelude free next).walk preludeHost steps
        else none
      | .error _ => none
    else none
  | _, _ => none

def filterProgram : String :=
  "(filter \x7b x -> x \x7d [True False])"

/-- The program is about to call `filter`. -/
def filterCaller (r : Except ParseError Program) : Option Machine :=
  behindPrelude 62 r (compileText filterProgram false 0)

/-- A machine that is about to call `filter` with some value and the list of `True` and `False`. -/
def Machine.callsFilter (m : Machine) : Bool :=
  match m.frame.rest, m.operands, (m.store.root 1).valueAt? [] "filter" with
  | .mk _ (.call 2) :: _,
      [.function f, _, .record c₁ [.constant d₁, .record c₂ [.constant d₂, .constant e]]], some (.function g) =>
    f.same g && [c₁, c₂, d₁, d₂, e] = [builtins.cons, builtins.cons, builtins.yes, builtins.no, builtins.empty]
  | _, _, _ => false

/-- A machine with nothing but the list of `True` on its stack. -/
def Machine.holdsYes (m : Machine) : Bool :=
  match m.operands with
  | [.record c [.constant d, .constant e]] => [c, d, e] = [builtins.cons, builtins.yes, builtins.empty]
  | _ => false

/-- The call is made from the first frame of the program, and answers. -/
def Machine.filters (m : Machine) : Bool :=
  m.callsFilter && m.store.module? preludeName == some 1 && m.task.frames.depth == 1 &&
    (m.answer? preludeHost m.nesting 230).any (·.holdsYes)

theorem Machine.callsFilter_sound {m : Machine} (h : m.callsFilter = true) :
    ∃ c callee p, c.machine = m ∧ (m.store.root 1).valueAt? [] "filter" = some callee ∧
      CallSite.Calls c callee [p, builtins.list [builtins.boolValue true, builtins.boolValue false]] := by
  unfold callsFilter at h
  split at h
  · rename_i line k f p c₁ d₁ c₂ d₂ e g hr ho hv
    simp only [Bool.and_eq_true, decide_eq_true_eq, List.cons.injEq, and_true] at h
    obtain ⟨hsame, rfl, rfl, rfl, rfl, rfl⟩ := h
    exact ⟨{ machine := m, rest := [], line, after := k }, .function g, p, rfl, hv, hr,
      Closure.eq_of_same hsame ▸ ho⟩
  · cases h

theorem Machine.holdsYes_sound {m : Machine} (h : m.holdsYes = true) :
    m.operands = [builtins.list [builtins.boolValue true]] := by
  unfold holdsYes at h
  split at h
  · rename_i ho
    simp only [decide_eq_true_eq, List.cons.injEq, and_true] at h
    obtain ⟨rfl, rfl, rfl⟩ := h
    exact ho
  · cases h

set_option maxRecDepth 100000 in
theorem filterCaller_filters : (filterCaller (Program.read preludeSource)).any (·.filters) = true := by
  have hlist : ∃ l, preludeSource = String.ofList l ∧
      (filterCaller (Program.read (String.ofList l))).any (·.filters) = true := by
    unfold preludeSource
    refine ⟨_, rfl, ?_⟩
    unfold Program.read scan
    rw [String.toList_ofList]
    decide +kernel
  obtain ⟨l, hl, hr⟩ := hlist
  rw [hl]
  exact hr

/-- The program is run with the prelude in a session of its own. -/
theorem behindPrelude_spares {r : Except ParseError Program} {main : Except RunError (Code × Nat)} {steps : Nat}
    {source : String} {m : Machine} (hr : Program.read preludeSource = r) (hc : compileText source false 0 = main)
    (hm : behindPrelude steps r main = some m) : SparesPrelude ⟨.running m, []⟩ := by
  unfold behindPrelude at hm
  split at hm
  · rename_i p code free
    split at hm
    · split at hm
      · rename_i prelude next hcompile
        split at hm
        · obtain ⟨q, -, hq⟩ := compileText_eq_ok hc
          let σ : Store := { Store.initial .deaf with nextSlot := free }
          have hbegin : beginCode σ true "main" code = .running (preludeMachine code prelude free next) :=
            beginCode_prelude (σ := σ) rfl (compileModule_of_read hr hcompile)
          have hstart : Spares (start .deaf) ⟨beginCode σ true "main" code, []⟩ :=
            .next (.begins (.module false true "main" hq))
          rw [hbegin] at hstart
          have hwalk : Later (fun _ => True) False ⟨.running (preludeMachine code prelude free next), []⟩ ⟨.running m, []⟩ :=
            .walk trivial hm []
          exact ⟨.deaf, .head hstart (hwalk.lift id fun _ _ => .next)⟩
        · cases hm
      · cases hm
    · cases hm
  · cases hm

/-- `filter` applies the function to `True` and to `False`, and answers with the list of `True`. -/
theorem filter_keeps_what_is_true :
    ∃ (a : Moment) (c : CallSite) (callee p : Value) (m : Machine), SparesPrelude a ∧
      a.now = .running c.machine ∧ a.store.module? preludeName = some 1 ∧
      (a.store.root 1).valueAt? [] "filter" = some callee ∧
      c.Calls callee [p, builtins.list [builtins.boolValue true, builtins.boolValue false]] ∧
      c.Roomy preludeHost ∧ m.operands = [builtins.list [builtins.boolValue true]] ∧
      c.Enacts preludeHost 1 (.filter p [builtins.boolValue true, builtins.boolValue false] fun ws =>
        .answer (builtins.list ws)) (some (.running m)) := by
  have hfilters := filterCaller_filters
  generalize hr : Program.read preludeSource = r at hfilters
  cases hm : filterCaller r with
  | none =>
    rw [hm] at hfilters
    cases hfilters
  | some m =>
    rw [hm] at hfilters
    simp only [Option.any_some, Machine.filters, Bool.and_eq_true, beq_iff_eq] at hfilters
    obtain ⟨⟨⟨hcalls, hmod⟩, hdepth⟩, hanswer⟩ := hfilters
    obtain ⟨c, callee, p, rfl, hf, hc⟩ := Machine.callsFilter_sound hcalls
    have hspares := behindPrelude_spares hr rfl hm
    have hroomy : c.Roomy preludeHost := by
      intro limit hl
      cases hl
      rw [hdepth]
      decide
    cases ha : c.machine.answer? preludeHost c.machine.nesting 230 with
    | none =>
      rw [ha] at hanswer
      cases hanswer
    | some m =>
      rw [ha] at hanswer
      exact ⟨_, c, callee, p, m, hspares, rfl, hmod, hf, hc, hroomy, Machine.holdsYes_sound hanswer,
        (list_functions_do_as_scripted hspares rfl hmod hf hc (.filter p _) hroomy _).mp (Machine.answer?_sound ha)⟩

end MatchLang
