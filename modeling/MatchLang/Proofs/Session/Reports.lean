import MatchLang.Proofs.Machine.Backtrace
import MatchLang.Proofs.Machine.Complaints
import MatchLang.Proofs.Session.Lines

/-! The report of a program that fails. It is the only thing that the run complains of, however deep in the imports the
fault came up, and its backtrace lists what was running: the body of a module, and the calls that had begun in it and
had not come to their end. -/

namespace MatchLang

/-- A fault that comes up in a run from `first`, the last module of which is `outermost`. -/
structure Report (host : Host) (first : Machine) (outermost : String) where
  steps : Nat
  before : Machine
  after : Machine
  fault : Fault
  /-- The line where the fault comes up. -/
  line : Nat
  /-- The calls that have not come to their end, the latest first. -/
  calls : List Call
  reached : first.walk host steps = some before
  raised : before.step host = .raised after fault
  faults : before.FaultsAt after line
  trace : after.task.trace = traceOf after.task.module line calls
  unfinished : ∀ c, c ∈ calls ↔ c.Open host first steps
  latest : calls.Pairwise (·.step > ·.step)
  waits : Waits outermost after.task.module after.waiting

/-- What the fault is in the outermost module. -/
def Report.failure {host : Host} {first : Machine} {outermost : String} (r : Report host first outermost) : Failure :=
  r.after.failure r.fault

section

variable {κ : Registry} {host : Host} {first m m' : Machine} {t : Task} {ws : List Suspended} {fault : Fault}
  {n fuel next line : Nat} {outermost module source : String} {σ τ : Store} {code : Code} {calls : List Call}
  {spaces : List Workspace} {p : Program} {f : Failure} {e : Ending}

theorem traceOf_getLast? (module : String) (line : Nat) (calls : List Call) :
    ∃ last, (traceOf module line calls).getLast? = some ⟨moduleText module, last⟩ := by
  induction calls generalizing line with
  | nil => exact ⟨line, rfl⟩
  | cons c cs ih =>
    obtain ⟨last, hl⟩ := ih c.line
    refine ⟨last, ?_⟩
    rw [traceOf, List.getLast?_cons, hl]
    rfl

/-- What is reported in the end is listed down to the body of the outermost module. -/
theorem Waits.unwind_getLast? (hw : Waits outermost t.module ws) (ht : t.trace = traceOf t.module line calls) :
    ∃ last, (unwind t fault ws).trace.getLast? = some ⟨moduleText outermost, last⟩ := by
  induction ws generalizing t fault line calls with
  | nil =>
    have hm : t.module = outermost := hw
    rw [unwind, ht, hm]
    exact traceOf_getLast? outermost line calls
  | cons w ws ih => exact ih hw.2 hw.1.toInBody.trace

/-- A program begins in the body of its module, or with the prelude for it. -/
theorem Machine.equip_posted {withPrelude : Bool} (hb : m.task.InBody) (hw : Waits outermost m.task.module m.waiting) :
    ∃ m', m.equip withPrelude = .running m' ∧ m'.Posted outermost ∧ m'.task.InBody ∧
      m.store.console.Hushed m'.store.console := by
  unfold equip
  split
  · have hl : m.Loaded bareHost preludeName .whole (m.loadPrelude .whole) := loadPrelude_loaded
    obtain ⟨m', hm'⟩ : ∃ m', m.loadPrelude .whole = .running m' := loadPrelude_running
    have hhushed : m.store.console.Hushed (m.loadPrelude .whole).store.console := hl.hushed
    rw [hm'] at hhushed
    exact ⟨m', hm', hl.posted_prelude hb hw m' hm', hl.inBody hb m' hm', hhushed⟩
  · exact ⟨m, rfl, .imports hw, hb, .refl _⟩

/-- At every step of a run the frames are accounted for. -/
theorem Machine.Posted.traced (hpost : first.Posted outermost) (hprep : first.Preparing []) (hbody : first.task.InBody)
    (hall : ∀ n m, first.walk host n = some m → (∃ κ h, m.Ok κ h) ∧ m.frame.InCode) :
    ∀ n m, first.walk host n = some m →
      m.Posted outermost ∧ m.Preparing [] ∧ ∃ calls, m.Traced host first n calls := by
  intro n
  induction n with
  | zero =>
    intro m hw
    cases hw
    exact ⟨hpost, hprep, [], .of_inBody hbody fun c m₁ hc => absurd hc.before (Nat.not_lt_zero _)⟩
  | succ n ih =>
    intro m' hw
    obtain ⟨m, hn, hs⟩ := walk_succ_right hw
    obtain ⟨hp, hprep, calls, ht⟩ := ih m hn
    obtain ⟨⟨κ, h, hok⟩, hin⟩ := hall n m hn
    have hknown : m.Known [] := ⟨hok.tasks.places_lt, nofun⟩
    exact ⟨hp.step hok hprep hin (fun hc => (ht.calls_nil hc).2) hs, hprep.step hknown hs, ht.step hn hp hok hs⟩

/-- Where a run fails, there is a report of it. -/
theorem Machine.Posted.report (hpost : first.Posted outermost) (hprep : first.Preparing [])
    (hbody : first.task.InBody) (hall : ∀ n m, first.walk host n = some m → (∃ κ h, m.Ok κ h) ∧ m.frame.InCode)
    (hf : first.run host fuel = .failed τ f) : ∃ r : Report host first outermost, f = r.failure := by
  obtain ⟨n, -, m, m', fault, hw, hs, -, rfl⟩ := run_eq_failed.mp hf
  obtain ⟨hp, hprep, calls, ht⟩ := hpost.traced hprep hbody hall n m hw
  obtain ⟨⟨line, hat⟩, hwaits⟩ := hp.raised hprep hs
  exact ⟨⟨n, m, m', fault, line, calls, hw, hs, hat, ht.trace_at hat, fun c => (ht.held c).trans Call.open_iff.symm,
    ht.stacked.latest_first, hwaits⟩, rfl⟩

/-- A program that compiles begins to run. It complains of nothing unless it fails, be it in a module that it
imports. If it fails there is one report: that of a fault that comes up in some step, and for each module that waits
then of the failure of what it imports. Of the module in which the fault comes up the report lists, innermost first,
the function of each call that has begun and has not come to its end, and then the body; the first entry has the line
of the fault, and each other that of the call which the function there has made. Of each module that waits it lists
the body, at the line of the import. -/
theorem failures_are_reported_once (host : Host) (fuel : Nat) (module : String) (hs : Session σ spaces)
    (hr : Program.read source = .ok p) (hc : p.compile false σ.nextSlot = .ok (code, next)) :
    ∃ first, beginSource host σ module source = .ok (.running first) ∧
      ((∃ f, (runSource host fuel σ module source).1 = .error (.runtime f) ∧
          (runSource host fuel σ module source).2.console.errors = (σ.console.complain f.report).errors ∧
          (∃ r : Report host first module, f = r.failure) ∧
          ∃ line, f.trace.getLast? = some ⟨moduleText module, line⟩) ∨
        ((∃ v, (runSource host fuel σ module source).1 = .ok v) ∨
          (runSource host fuel σ module source).1 = .error .unfinished) ∧
        (runSource host fuel σ module source).2.console.errors = σ.console.errors) := by
  let m : Machine :=
    { store := (Store.newTask { σ with nextSlot := next } module code).2
      task := (Store.newTask { σ with nextSlot := next } module code).1
      waiting := [] }
  obtain ⟨first, hfirst, hpost, hbody, hhushed⟩ : ∃ first, m.equip host.withPrelude = .running first ∧
      first.Posted module ∧ first.task.InBody ∧ σ.console.Hushed first.store.console :=
    Machine.equip_posted bodyTask_inBody rfl
  have hfirst : beginCode { σ with nextSlot := next } host.withPrelude module code = .running first := hfirst
  have hbegin : beginSource host σ module source = .ok (.running first) := by
    have htext : compileText source false σ.nextSlot = .ok (code, next) := by
      unfold compileText
      rw [hr]
      simp only [hc]
    rw [← hfirst, beginSource, htext]
    rfl
  have hrun : runSource host fuel σ module source = settle (first.run host fuel) := by
    unfold runSource
    rw [hbegin]
    rfl
  have hb : p.Begins σ spaces (.running first) := hfirst ▸ .module false host.withPrelude module hc
  have hall : ∀ n m, first.walk host n = some m → (∃ κ h, m.Ok κ h) ∧ m.frame.InCode := by
    intro n m hw
    obtain ⟨vs, ho⟩ := Moment.Occurs.of_begins hs hb (Transition.Leads.refl.reaches ⟨n, hw⟩)
    obtain ⟨κ, h, κ', -, hok, -⟩ := ho.ok.now
    have hclosed : m.Closed := Machine.Settled.closed ho.settled
    exact ⟨⟨κ', h, hok⟩, (hclosed.frames m.frame List.mem_cons_self).inCode⟩
  have hprep : first.Preparing [] := beginCode_preparing (fun w hw => absurd hw List.not_mem_nil) first hfirst
  have hquiet : σ.console.Hushed (first.run host fuel).store.console :=
    hhushed.trans (Machine.run_hushed fuel)
  refine ⟨first, hbegin, ?_⟩
  rw [hrun]
  generalize he : first.run host fuel = e at hquiet
  cases e with
  | finished τ v => exact .inr ⟨.inl ⟨v, rfl⟩, hquiet.errors⟩
  | cut m => exact .inr ⟨.inr rfl, hquiet.errors⟩
  | failed τ f =>
    obtain ⟨r, rfl⟩ := hpost.report hprep hbody hall he
    exact .inl ⟨_, rfl, hquiet.complain.errors, ⟨r, rfl⟩, r.waits.unwind_getLast? r.trace⟩

/-- What is complained of comes from a program that compiles. -/
theorem compiles_of_complaint (h : (runSource host fuel σ module source).2.console.errors ≠ σ.console.errors) :
    ∃ p code next, Program.read source = .ok p ∧ p.compile false σ.nextSlot = .ok (code, next) := by
  unfold runSource beginSource at h
  cases hc : compileText source false σ.nextSlot with
  | error e =>
    rw [hc] at h
    exact absurd rfl h
  | ok r =>
    obtain ⟨p, hr, hp⟩ := compileText_eq_ok hc
    exact ⟨p, r.1, r.2, hr, hp⟩

end

/-- A module with a function that calls what is none. -/
def brokenHost : Host where
  appRoot := ""
  withPrelude := false
  callLimit := some 10
  read file := if file = "broken" then .ok "let f = { x -> (x) }\n(f \"c\")" else .error .missing

/-- A program that imports the module. -/
def brokenText : String :=
  "import \"broken\""

def brokenReport : String :=
  "Error while loading module 'broken': c is not a function\n    in <function broken:1> at line 1\n" ++
    "  from <module broken> at line 2\n    in <module main> at line 1"

theorem broken_import_is_reported : ∃ first f,
    beginSource brokenHost (.initial (.listening [])) "main" brokenText = .ok (.running first) ∧
      (∃ r : Report brokenHost first "main", f = r.failure) ∧ f.report = brokenReport := by
  have herrors : (runSource brokenHost 50 (.initial (.listening [])) "main" brokenText).2.console.errors.toList =
      [brokenReport] := by decide +kernel
  revert herrors
  -- What the texts are does not matter from here on.
  generalize brokenText = source
  generalize brokenReport = report
  intro herrors
  have hempty : (Store.initial (.listening [])).console.errors.toList = [] := rfl
  obtain ⟨p, code, next, hr, hc⟩ : ∃ p code next, Program.read source = .ok p ∧
      p.compile false (Store.initial (.listening [])).nextSlot = .ok (code, next) := by
    have hne : (runSource brokenHost 50 (.initial (.listening [])) "main" source).2.console.errors ≠
        (Store.initial (.listening [])).console.errors := by
      intro he
      rw [he, hempty] at herrors
      cases herrors
    exact compiles_of_complaint hne
  obtain ⟨first, hbegin, h⟩ := failures_are_reported_once brokenHost 50 "main" (.begins _) hr hc
  rcases h with ⟨f, -, hone, hreport, -⟩ | ⟨-, hnone⟩
  · rw [hone] at herrors
    exact ⟨first, f, hbegin, hreport, (List.cons.inj herrors).1⟩
  · rw [hnone, hempty] at herrors
    cases herrors

end MatchLang
