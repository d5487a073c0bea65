import Mathlib.Data.List.Perm.Subperm
import MatchLang.Proofs.Lowering.Forward
import MatchLang.Proofs.Machine.Pointer
import MatchLang.Proofs.Session.Lines
import MatchLang.Proofs.Session.Units

/-! Runs go forward. A function that has begun takes no more steps than its code has instructions until it ends,
fails or begins again by a tail call. -/

namespace MatchLang

section

variable {host : Host} {m m' : Machine} {f : Frame} {fs : List Frame} {n line : Nat} {op : Op} {k : List Instr}

namespace Machine

theorem Units.forward (hu : m.Units Code.Forward) (hf : f ∈ m.stack) : f.closure.code.Forward :=
  (hu.frames f hf).self

theorem Closed.inCode (hm : m.Closed) (hf : f ∈ m.stack) : f.InCode :=
  (hm.frames f hf).inCode

/-- After an instruction other than a tail call the frame that has executed it stands behind it. -/
theorem Units.step_forward (hu : m.Units Code.Forward) (hm : m.Closed) (hr : m.frame.rest = .mk line op :: k)
    (hop : ∀ argc, op ≠ .tailCall argc) (hs : m.step host = .running m') :
    ∃ above f, m'.stack = above ++ f :: m.below ∧ f.closure = m.frame.closure ∧ f.scope = m.frame.scope ∧
      m.frame.pointer < f.pointer := by
  have hc : m.Continues m'.stack := step_continues hs
  generalize m'.stack = stack at hc ⊢
  cases hc with
  | ends he =>
    rw [hr] at he
    cases he
  | restarts _ he =>
    rw [hr] at he
    cases he
    exact absurd rfl (hop _)
  | goes above he hp =>
    have hin : m.frame.InCode := hm.inCode List.mem_cons_self
    exact ⟨above, _, rfl, rfl, rfl, hin.pointer_moved he (hu.forward List.mem_cons_self) hp⟩

/-- What a frame executes stands in the order of the code, from where the frame is on. -/
theorem executed_ascending (hu : m.Units Code.Forward) (hm : m.Closed) (hst : f :: fs <:+ m.stack) :
    (m.executed host (fs.length + 1) n).Pairwise (· < ·) ∧
      ∀ i ∈ m.executed host (fs.length + 1) n, f.pointer ≤ i ∧ i < f.closure.code.length := by
  induction n generalizing m f with
  | zero => exact ⟨.nil, nofun⟩
  | succ n ih =>
    have hnext : ∀ m', m.step host = .running m' → m'.Units Code.Forward ∧ m'.Closed := by
      intro m' hs
      have hu' : (m.step host).Units Code.Forward := hu.step (fun hc => compile_forward hc) hm
      have hm' : (m.step host).Closed := hm.step
      rw [hs] at hu' hm'
      exact ⟨hu', hm'⟩
    unfold executed
    rcases List.suffix_cons_iff.mp hst with he | hbelow
    · -- The frame runs itself.
      obtain ⟨rfl, rfl⟩ := List.cons.inj he
      rw [if_neg (show ¬ m.below.length + 1 < m.stack.length from Nat.lt_irrefl _)]
      split
      · exact ⟨.nil, nofun⟩
      · rename_i line argc k hr
        have hlt := (hm.inCode List.mem_cons_self).pointer_lt hr
        exact ⟨List.pairwise_singleton _ _, List.forall_mem_singleton.mpr ⟨Nat.le_refl _, hlt⟩⟩
      · rename_i i k hnot hr
        obtain ⟨line, op⟩ := i
        have hlt := (hm.inCode List.mem_cons_self).pointer_lt hr
        cases hs : m.step host with
        | running m' =>
          have hop : ∀ argc, op ≠ .tailCall argc := by
            rintro argc rfl
            exact hnot _ _ rfl
          obtain ⟨above, g, hstack, hclosure, -, hg⟩ := hu.step_forward hm hr hop hs
          have hsuffix : g :: m.below <:+ m'.stack := hstack ▸ List.suffix_append _ _
          obtain ⟨hp, hb⟩ := ih (hnext m' hs).1 (hnext m' hs).2 hsuffix
          rw [hclosure] at hb
          refine ⟨List.pairwise_cons.mpr ⟨fun i hi => Nat.lt_of_lt_of_le hg (hb i hi).1, hp⟩, fun i hi => ?_⟩
          rcases List.mem_cons.mp hi with rfl | hi
          · exact ⟨Nat.le_refl _, hlt⟩
          · exact ⟨Nat.le_trans (Nat.le_of_lt hg) (hb i hi).1, (hb i hi).2⟩
        | finished _ _ | raised _ _ =>
          exact ⟨List.pairwise_singleton _ _, List.forall_mem_singleton.mpr ⟨Nat.le_refl _, hlt⟩⟩
    · -- Another frame runs above it.
      have hlen : fs.length + 1 ≤ m.below.length := hbelow.length_le
      rw [if_pos (show fs.length + 1 < m.stack.length from Nat.lt_succ_of_le hlen)]
      cases hs : m.step host with
      | running m' => exact ih (hnext m' hs).1 (hnext m' hs).2 ((step_continues hs).below hbelow)
      | finished _ _ | raised _ _ => exact ⟨.nil, nofun⟩

end Machine

theorem length_le_of_ascending {is : List Nat} (hp : is.Pairwise (· < ·)) (hb : ∀ i ∈ is, i < n) : is.length ≤ n := by
  have hsub : is ⊆ List.range n := fun i hi => List.mem_range.mpr (hb i hi)
  have hnodup : is.Nodup := hp.imp fun h => Nat.ne_of_lt h
  exact (hnodup.subperm hsub).length_le.trans_eq List.length_range

end

section

variable {σ : Store} {ws : List Workspace} {p : Program} {t : Transition} {m : Machine}

/-- Jumps lead forward in all code that a program compiles to, and only a tail call takes a function that runs back
in its code. So before it ends, fails or makes a tail call it executes each instruction once at most, and takes no
more steps than there are instructions, each call and each import being one. -/
theorem only_tail_calls_go_back (hs : Session σ ws) (hp : p.Begins σ ws t) (hu : t.Leads (.running m)) :
    (∀ publishRoot n code next, p.compile publishRoot n = .ok (code, next) → code.EveryUnit Code.Forward) ∧
    (∀ host m' line op k, m.frame.rest = .mk line op :: k → (∀ argc, op ≠ .tailCall argc) →
      m.step host = .running m' →
      ∃ above f, m'.stack = above ++ f :: m.below ∧ f.closure = m.frame.closure ∧ f.scope = m.frame.scope ∧
        m.frame.pointer < f.pointer) ∧
    ∀ host n, (m.executed host m.stack.length n).Pairwise (· < ·) ∧
      (∀ i ∈ m.executed host m.stack.length n, m.frame.pointer ≤ i ∧ i < m.frame.closure.code.length) ∧
      (m.executed host m.stack.length n).length ≤ m.frame.closure.code.length := by
  obtain ⟨vs, ha⟩ := Moment.Occurs.of_begins hs hp hu
  have hclosed : m.Closed := Machine.Settled.closed ha.settled
  have hempty : Code.empty.Forward := fun i instr label hi => by simp [Code.empty, Code.instrs] at hi
  have hunits : m.Units Code.Forward := ha.units (fun hc => compile_forward hc) hempty
  refine ⟨fun _ _ _ _ hc => compile_forward hc, fun host m' line op k hr hop hstep => ?_, fun host n => ?_⟩
  · exact hunits.step_forward hclosed hr hop hstep
  · have hstack : m.frame :: m.below <:+ m.stack := List.suffix_refl _
    obtain ⟨hasc, hin⟩ : (m.executed host m.stack.length n).Pairwise (· < ·) ∧
        ∀ i ∈ m.executed host m.stack.length n, m.frame.pointer ≤ i ∧ i < m.frame.closure.code.length :=
      Machine.executed_ascending hunits hclosed hstack
    exact ⟨hasc, hin, length_le_of_ascending hasc fun i hi => (hin i hi).2⟩

end

/-- The program `(match True [ { (False) -> () } { (True) -> Empty } ])`. -/
def secondArmProgram : Program :=
  { imports := []
    root := .mk ⟨0, [], 1⟩ true []
    trailing := some
      { callee := .name ⟨1, ["match"], 1⟩
        args := [.name ⟨2, ["True"], 1⟩,
          .list
            [.result (.function [.type ⟨3, ["False"], 1⟩ []] (.result (.literal .unit 1)) 1),
              .result (.function [.type ⟨4, ["True"], 1⟩ []] (.result (.name ⟨5, ["Empty"], 1⟩)) 1)] 1]
        line := 1 } }

def secondArmUnit : Code :=
  match secondArmProgram.compile false 0 with
  | .ok (code, _) => code
  | .error _ => .empty

/-- The code of the first arm, at 6 to 8, and the instruction at 5 for a value that no arm takes are left out. -/
theorem second_arm_is_reached_forward :
    secondArmUnit.EveryUnit Code.Forward ∧
    (codeMachine secondArmUnit []).executed bareHost 1 40 = [0, 1, 2, 3, 4, 9, 10, 11, 12] ∧
    ((codeMachine secondArmUnit []).executed bareHost 1 40).length ≤ secondArmUnit.length ∧
    secondArmUnit.length = 13 :=
  have hc : secondArmProgram.compile false (Store.initial .deaf).nextSlot = .ok (secondArmUnit, 0) := rfl
  have hb : secondArmProgram.Begins (.initial .deaf) [] (.running (codeMachine secondArmUnit [])) :=
    .module false false "main" hc
  have h := only_tail_calls_go_back (.begins .deaf) hb .refl
  ⟨h.1 false _ _ _ hc, rfl, (h.2.2 bareHost 40).2.2, rfl⟩

end MatchLang
