import MatchLang.Proofs.Code.Units
import MatchLang.Proofs.Machine.Functions

/-! Where a function that runs has come to in its code. Of what the machine does, a tail call alone takes a frame
back; so where jumps lead forward, a frame executes each instruction once at most until it begins again. -/

namespace MatchLang

/-- The index of the instruction that a frame is at, which is the length of the code past the last. -/
def Frame.pointer (f : Frame) : Nat :=
  f.closure.code.length - f.rest.length

/-- Where a unit goes on after an instruction that comes before the given ones: at these, or at the label that the
instruction names. -/
def Op.Proceeds (op : Op) (c : Code) (k is : List Instr) : Prop :=
  is = k ∨ ∃ label, op.label? = some label ∧ c.from? label = some is

/-- The frames after a step. The running frame ends, begins again, or goes on, be it at once or below others. -/
inductive Machine.Continues (m : Machine) : List Frame → Prop where
  | ends : m.frame.rest = [] → Continues m m.below
  | restarts {line argc k} (scope : Nat) : m.frame.rest = .mk line (.tailCall argc) :: k →
    Continues m (m.frame.again scope line :: m.below)
  | goes {line op k is} (above : List Frame) : m.frame.rest = .mk line op :: k →
    op.Proceeds m.frame.closure.code k is → Continues m (above ++ m.frame.moved line is :: m.below)

section

variable {host : Host} {m m' : Machine} {t : Transition} {op : Op} {s : Setting} {σ : Store} {os : List Value}
  {line : Nat} {k is : List Instr} {file : String} {delivery : Delivery} {f : Frame}

/-- Only the label of a jump is looked up in the code that runs. -/
theorem Op.action_proceeds (h : op.action s line k = .proceed σ os is) : op.Proceeds s.closure.code k is := by
  cases hl : op.label? with
  | some label =>
    have hjump : ∀ s' : Setting, s'.closure = s.closure → s'.jump label = .proceed σ os is →
        s.closure.code.from? label = some is := by
      intro s' hs hj
      unfold Setting.jump at hj
      rw [hs] at hj
      cases hf : s.closure.code.from? label with
      | none =>
        rw [hf] at hj
        cases hj
      | some is' =>
        rw [hf] at hj
        cases hj
        rfl
    cases op with
    | jump l =>
      cases hl
      exact .inr ⟨label, rfl, hjump s rfl h⟩
    | jumpIf shape l =>
      cases hl
      simp only [Op.action, Setting.test, Setting.pop] at h
      cases ho : s.operands with
      | nil =>
        rw [ho] at h
        cases h
      | cons v vs =>
        simp only [ho] at h
        cases hfit : shape.accepts s.home.findType v with
        | error e =>
          rw [hfit] at h
          cases h
        | ok fits =>
          rw [hfit] at h
          cases fits with
          | true => exact .inr ⟨label, rfl, hjump { s with operands := vs } rfl h⟩
          | false =>
            cases h
            exact .inl rfl
    | _ => cases hl
  | none =>
    -- The same happens where no label has a place.
    let bare : Setting := { s with closure := { s.closure with code := .empty } }
    have hsame : op.action bare line k = op.action s line k := by
      cases op with
      | jump label | jumpIf shape label => cases hl
      | _ => rfl
    have ho : op.Outcome bare k (op.action bare line k) := op.action_outcome bare line k
    rw [hsame, h] at ho
    cases ho with
    | proceeds _ hf =>
      rcases hf with rfl | ⟨label, hf⟩
      · exact .inl rfl
      · cases hf

namespace Machine

theorem deliver_stack {source : Nat} (h : m.deliver source delivery = .running m') : m'.stack = m.stack := by
  rw [deliver_eq] at h
  generalize (delivery.merge _ _).2 = fault at h
  cases fault with
  | none =>
    cases h
    rfl
  | some f => cases h

theorem Loaded.stack_above (hl : m.Loaded host file delivery t) (ht : t = .running m') :
    ∃ above, m'.stack = above ++ m.stack := by
  induction hl with
  | cached _ => exact ⟨[], deliver_stack ht⟩
  | faults _ => cases ht
  | begins _ _ _ =>
    cases ht
    exact ⟨[_], rfl⟩
  | equips _ _ _ _ _ _ ih =>
    obtain ⟨above, he⟩ := ih ht
    exact ⟨above ++ [_], by rw [he, List.append_assoc]; rfl⟩

theorem step_continues (h : m.step host = .running m') : m.Continues m'.stack := by
  cases hr : m.frame.rest with
  | nil =>
    cases hc : m.task.frames.callers with
    | cons g gs =>
      obtain ⟨frames, hp, -⟩ := Frames.pop?_cons (f := m.frame) (congrArg (m.frame :: ·) hc)
      rw [step_pop hr hp] at h
      cases h
      have he : (m.withFrames frames).stack = m.below := by
        unfold below
        rw [← Frames.toList_pop? hp]
        rfl
      exact he ▸ .ends hr
    | nil =>
      rw [step_nil hr hc, finish] at h
      cases hw : m.waiting with
      | nil =>
        rw [hw] at h
        cases h
      | cons w ws =>
        rw [hw] at h
        have he : m'.stack = m.below := by
          rw [deliver_stack h, below, hc, hw]
          rfl
        exact he ▸ .ends hr
  | cons i k =>
    obtain ⟨line, op⟩ := i
    rw [step_eq_act hr] at h
    have ho : op.Outcome m.setting k (op.action m.setting line k) := op.action_outcome m.setting line k
    cases ha : op.action m.setting line k with
    | proceed σ os is =>
      rw [ha] at h
      cases h
      exact .goes [] hr (Op.action_proceeds ha)
    | enter c os =>
      rw [ha] at h
      obtain ⟨rfl, -⟩ := enter_eq_running h
      exact .goes [c.entered m.store.scopes.size] hr (.inl rfl)
    | restart =>
      rw [ha] at h ho
      cases h
      cases ho with
      | restarts he _ => exact .restarts _ (he ▸ hr)
    | load file delivery =>
      rw [ha] at h
      have hl : (m.resume m.store m.operands line k).Loaded host file delivery _ := load_loaded
      obtain ⟨above, he⟩ := hl.stack_above h
      exact he ▸ .goes above hr (.inl rfl)
    | fail σ os f =>
      rw [ha] at h
      cases h

end Machine

theorem Frame.InCode.pointer_lt (hf : f.InCode) (hr : f.rest = .mk line op :: k) :
    f.pointer < f.closure.code.length := by
  obtain ⟨before, he⟩ := hf
  have hlen : f.closure.code.length = before.length + (k.length + 1) := by
    rw [Code.length, ← he, hr, List.length_append, List.length_cons]
  rw [pointer, hr, List.length_cons]
  omega

/-- Where jumps lead forward, a frame goes on behind the instruction that it was at. -/
theorem Frame.InCode.pointer_moved {line' : Nat} (hf : f.InCode) (hr : f.rest = .mk line op :: k)
    (hc : f.closure.code.Forward) (hp : op.Proceeds f.closure.code k is) :
    f.pointer < (f.moved line' is).pointer := by
  obtain ⟨before, he⟩ := hf
  have hlen : f.closure.code.length = before.length + (k.length + 1) := by
    rw [Code.length, ← he, hr, List.length_append, List.length_cons]
  have hat : f.pointer = before.length := by
    rw [pointer, hr, List.length_cons]
    omega
  have hmoved : (f.moved line' is).pointer = f.closure.code.length - is.length := rfl
  rcases hp with rfl | ⟨label, hl, hfrom⟩
  · omega
  · obtain ⟨target, ht, rfl⟩ := Option.map_eq_some_iff.mp hfrom
    have hi : f.closure.code.instrs[before.length]? = some (.mk line op) := by
      rw [← he, hr, List.getElem?_append_right (Nat.le_refl _), Nat.sub_self]
      rfl
    obtain ⟨target', ht', hlt, hend⟩ := hc before.length (.mk line op) label hi hl
    obtain rfl : target = target' := Option.some.inj (ht.symm.trans ht')
    rw [List.length_drop, ← Code.length] at hmoved
    omega

end

/-- What is listed of a run that goes on. -/
def Transition.onward (list : Machine → List Nat) : Transition → List Nat
  | .running m => list m
  | .finished _ _ => []
  | .raised _ _ => []

/-- The indices of the instructions that the frame with the given number of frames from the bottom executes in some
steps, until it ends, fails or makes a tail call. What it calls or imports in the meantime does not count. -/
def Machine.executed (host : Host) (level : Nat) : Nat → Machine → List Nat
  | 0, _ => []
  | n + 1, m =>
    if level < m.stack.length then (m.step host).onward (executed host level n)
    else
      match m.frame.rest with
      | [] => []
      | .mk _ (.tailCall _) :: _ => [m.frame.pointer]
      | _ :: _ => m.frame.pointer :: (m.step host).onward (executed host level n)

section

variable {host : Host} {m m' : Machine} {fs : List Frame} {n : Nat}

/-- Frames below the running one are as they were after a step. -/
theorem Machine.Continues.below {f : Frame} {stack : List Frame} (h : m.Continues stack)
    (hf : f :: fs <:+ m.below) : f :: fs <:+ stack := by
  cases h with
  | ends _ => exact hf
  | restarts scope _ => exact hf.trans (List.suffix_cons _ _)
  | goes above _ _ => exact (hf.trans (List.suffix_cons _ _)).trans (List.suffix_append _ _)

end

end MatchLang
