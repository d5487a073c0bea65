import MatchLang.Proofs.Lowering.Code
import MatchLang.Proofs.Machine.Passes
import MatchLang.Proofs.Pattern.Pieces
import MatchLang.Proofs.Value.Equality

/-! Equal values fit the same shapes. What a test looks at in a value is what equality compares, except in
what can be called: that a function is one shows in a partial call by its callee, so the values have to be
well-formed. A choice then goes the same way for both. -/

namespace MatchLang

section

variable {κ : Registry} {P : Closure → Prop} {find : List String → Except Fault DataType}
  {a b v : Value} {vs ws : List Value}

theorem Value.Sound.isCallable_partialCall {id : Nat} {callee : Value} {args : List Value}
    (h : (Value.partialCall id callee args).Sound κ P) : (Value.partialCall id callee args).isCallable := by
  obtain ⟨_, _, n, hn, _⟩ := h
  simp [Value.isCallable, Value.arity?, hn]

/-- Equal values are of the same types. -/
theorem admits_congr (t : DataType) (h : a.EqualTo b) (ha : a.Sound κ P) (hb : b.Sound κ P) :
    t.admits a = t.admits b := by
  cases t with
  | number => cases h <;> rfl
  | text => cases h <;> rfl
  | function =>
    cases h with
    | partialCall => exact ha.isCallable_partialCall.trans hb.isCallable_partialCall.symm
    | _ => rfl
  | family name cases =>
    cases h with
    | record hc | constant hc => simp [DataType.admits, Value.case?, hc]
    | _ => rfl
  | case c =>
    cases h with
    | record hc | constant hc => simp [DataType.admits, Value.case?, hc]
    | _ => rfl

theorem sameNumber_congr {x y z : Float} (h : (x == y) = true) : (x == z) = (y == z) := by
  rw [Bool.eq_iff_iff]
  exact ⟨float_beq_trans (float_beq_comm x y ▸ h), float_beq_trans h⟩

mutual

/-- A test has the same answer, or the same fault, for equal values. -/
theorem accepts_congr : (s : Shape) → {a b : Value} → a.equal b = true → a.Sound κ P → b.Sound κ P →
    s.accepts find a = s.accepts find b
  | .any, _, _, _, _, _ => by simp only [Shape.accepts]
  | .number x, _, _, h, _, _ => by
    simp only [Shape.accepts]
    cases equal_iff.mp h with
    | number hx => simp only [sameNumber, sameNumber_congr hx]
    | _ => rfl
  | .text s, _, _, h, _, _ => by
    simp only [Shape.accepts]
    cases equal_iff.mp h <;> rfl
  | .emptyList, _, _, h, _, _ => by
    simp only [Shape.accepts]
    cases equal_iff.mp h with
    | constant hc => simp only [Builtins.isEmptyList, hc]
    | _ => rfl
  | .unit, _, _, h, _, _ => by
    simp only [Shape.accepts]
    cases equal_iff.mp h with
    | constant hc => simp only [Builtins.isUnit, hc]
    | _ => rfl
  | .type path inners, a, b, h, ha, hb => by
    have he := equal_iff.mp h
    rcases hf : find path with f | t
    · simp only [Shape.accepts, hf]
    · by_cases hc : ∃ c, t = .case c
      · obtain ⟨c, rfl⟩ := hc
        simp only [Shape.accepts, hf]
        cases he with
        | record hid hfs =>
          dsimp only
          rw [acceptsAll_congr inners hfs ha.2.2.2 hb.2.2.2, equalFields_length _ hfs, hid]
        | constant hid => simp only [hid]
        | _ => rfl
      · have hc : ∀ c, t ≠ .case c := not_exists.mp hc
        match inners with
        | [inner] =>
          rw [accepts_one hf hc, accepts_one hf hc, admits_congr t he ha hb, accepts_congr inner h ha hb]
        | [] | _ :: _ :: _ => rw [accepts_other hf hc (by simp), accepts_other hf hc (by simp)]

theorem acceptsAll_congr : (ss : List Shape) → {vs ws : List Value} → equalFields vs ws = true →
    SoundAll κ P vs → SoundAll κ P ws → acceptsAll find ss vs = acceptsAll find ss ws
  | [], vs, ws, _, _, _ => by simp only [acceptsAll]
  | s :: ss, [], [], _, _, _ => rfl
  | s :: ss, v :: vs, w :: ws, h, hv, hw => by
    obtain ⟨h, hs⟩ := equalFields_cons.mp h
    simp only [acceptsAll]
    rw [accepts_congr s h hv.1 hw.1, acceptsAll_congr ss hs hv.2 hw.2]
  | _ :: _, [], _ :: _, h, _, _ => by cases h
  | _ :: _, _ :: _, [], h, _, _ => by cases h

end

end

/-- The shapes that the arms of a choice test for. -/
def armShapes : List Block → List Shape
  | .result (.function [pattern] _ _) :: cases => pattern.shape :: armShapes cases
  | _ => []

/-- The number of the first arm whose shape a value has, if there is one. The tests behind it are not made. -/
def chooseArm (find : List String → Except Fault DataType) (v : Value) :
    List Shape → Except Fault (Option Nat)
  | [] => .ok none
  | s :: shapes =>
    match s.accepts find v with
    | .error f => .error f
    | .ok true => .ok (some 0)
    | .ok false => (chooseArm find v shapes).map (·.map (· + 1))

/-- Where the tests of a choice lead: to the code of an arm, to what is behind the tests, or to a fault. -/
inductive Led where
  | arm (number line : Nat) (start : List Instr)
  | behind (line : Nat)
  | fault (number line : Nat) (rest : List Instr) (f : Fault)

def Led.choice : Led → Except Fault (Option Nat)
  | .arm number _ _ => .ok (some number)
  | .behind _ => .ok none
  | .fault _ _ _ f => .error f

/-- The same with one more arm in front. -/
def Led.later : Led → Led
  | .arm number line start => .arm (number + 1) line start
  | .behind line => .behind line
  | .fault number line rest f => .fault (number + 1) line rest f

/-- With `v` on top of the stack the tests lead there, in two steps an arm. The value is on top again, and in
a fault the copy that was tested is still above it. -/
def Machine.LedTo (host : Host) (m : Machine) (σ : Store) (os : List Value) (line : Nat) (arms : Nat)
    (tests k : List Instr) (v : Value) : Led → Prop
  | .arm number line' start =>
    (∃ shape label, tests[2 * number + 1]? = some (.mk line' (.jumpIf shape label)) ∧
      m.frame.closure.code.from? label = some start) ∧
    (m.resume σ (v :: os) line tests).walk host (2 * (number + 1)) = some (m.resume σ (v :: os) line' start)
  | .behind line' =>
    (m.resume σ (v :: os) line tests).walk host (2 * arms) = some (m.resume σ (v :: os) line' k)
  | .fault number line' rest f =>
    ∃ m₁, (m.resume σ (v :: os) line tests).walk host (2 * number + 1) = some m₁ ∧
      m₁.step host = .raised (m.resume σ (v :: v :: os) line' rest) f

section

variable {l : Links} {cases : List Block} {m : Machine} {host : Host} {σ : Store} {os : List Value}
  {v : Value} {line : Nat} {tests k r : List Instr} {done i j behind : Nat} {allowTail : Bool}

theorem Led.choice_later (led : Led) : led.later.choice = led.choice.map (·.map (· + 1)) := by
  cases led <;> rfl

/-- Behind a test that the value has not passed. -/
theorem Machine.LedTo.later {armLine label : Nat} {shape : Shape} {arms : Nat} {led : Led}
    (ha : shape.accepts (σ.root m.frame.closure.home).findType v = .ok false)
    (h : m.LedTo host σ os armLine arms r k v led) :
    m.LedTo host σ os line (arms + 1)
      (.mk armLine .duplicate :: .mk armLine (.jumpIf shape label) :: r) k v led.later := by
  have htwo : (m.resume σ (v :: os) line
      (.mk armLine .duplicate :: .mk armLine (.jumpIf shape label) :: r)).walk host 2 =
      some (m.resume σ (v :: os) armLine r) := walk_test_no ha
  cases led with
  | arm number line' start =>
    obtain ⟨⟨shape', label', ht, hl⟩, hw⟩ := h
    refine ⟨⟨shape', label', ht, hl⟩, ?_⟩
    rw [Nat.mul_add_one, Nat.add_comm]
    exact walk_trans htwo hw
  | behind line' =>
    show walk host (2 * (arms + 1)) _ = _
    rw [Nat.mul_add_one, Nat.add_comm]
    exact walk_trans htwo h
  | fault number line' rest f =>
    obtain ⟨m₁, hw, hs⟩ := h
    refine ⟨m₁, ?_, hs⟩
    rw [Nat.mul_add_one, Nat.add_right_comm, Nat.add_comm]
    exact walk_trans htwo hw

/-- The tests of a choice lead to the arm that is chosen, and every value on which they have the same
answers is led to the same. -/
theorem Machine.tests_lead (host : Host) (σ : Store) (os : List Value) (line : Nat) (a : Value)
    (hc : ArmsCode l cases m.frame.closure.code done allowTail behind i j tests k) :
    ∃ led : Led, led.choice = chooseArm (σ.root m.frame.closure.home).findType a (armShapes cases) ∧
      ∀ v, (∀ s ∈ armShapes cases, s.accepts (σ.root m.frame.closure.home).findType v =
          s.accepts (σ.root m.frame.closure.home).findType a) →
        m.LedTo host σ os line (armShapes cases).length tests k v led := by
  induction cases generalizing line i tests with
  | nil =>
    obtain ⟨rfl, rfl⟩ := (by simpa only [ArmsCode] using hc : j = i ∧ tests = k)
    exact ⟨.behind line, rfl, fun v _ => rfl⟩
  | cons b cases ih =>
    obtain ⟨pattern, body, armLine, rfl⟩ : ∃ pattern body armLine,
        b = .result (.function [pattern] body armLine) := by
      unfold ArmsCode at hc
      split at hc
      · rename_i h
        cases h
      · rename_i pattern body armLine _ _ _ _ _ _ _ _ h
        cases h
        exact ⟨_, _, _, rfl⟩
      · exact hc.elim
    obtain ⟨label, _, r, start, _, _, rfl, hl, _, _, _, hrest⟩ := hc
    rcases ha : pattern.shape.accepts (σ.root m.frame.closure.home).findType a with f | fits
    · refine ⟨.fault 0 armLine r f, by simp [armShapes, chooseArm, ha, Led.choice], fun v hv => ?_⟩
      have hfault := (hv pattern.shape (by simp [armShapes])).trans ha
      refine ⟨_, walk_copy, ?_⟩
      rw [Machine.step_resume, perform_jumpIf_error hfault]
    · cases fits with
      | true =>
        refine ⟨.arm 0 armLine start, by simp [armShapes, chooseArm, ha, Led.choice], fun v hv => ?_⟩
        have hyes := (hv pattern.shape (by simp [armShapes])).trans ha
        exact ⟨⟨_, label, rfl, hl⟩, walk_test_yes hyes hl⟩
      | false =>
        obtain ⟨led, hled, hgo⟩ := ih armLine hrest
        refine ⟨led.later, by simp [armShapes, chooseArm, ha, led.choice_later, hled], fun v hv => ?_⟩
        have hno := hv pattern.shape (by simp [armShapes])
        exact (hgo v fun s hs => hv s (List.mem_cons_of_mem _ hs)).later (hno.trans ha)

end

/-- Equality is symmetric and transitive, and reflexive on what NaN does not occur in; and no pattern tells
equal values apart: a test has the same answer or the same fault on both, and the tests of a choice lead both
to the same arm, behind all arms, or to the same fault. -/
theorem patterns_respect_equality :
    (∀ a b console, Native.equal.run [a, b] console = .ok (builtins.boolValue (a.equal b), console)) ∧
    (∀ a b : Value, a.equal b = b.equal a) ∧
    (∀ a b c : Value, a.equal b = true → b.equal c = true → a.equal c = true) ∧
    (∀ a : Value, a.equal a = true ↔ ¬ a.HoldsNaN) ∧
    ∀ (κ : Registry) (P : Closure → Prop) (a b : Value),
      a.Sound κ P → b.Sound κ P → a.equal b = true →
      (∀ find shape, Shape.accepts find shape a = Shape.accepts find shape b) ∧
      ∀ (l : Links) (cases : List Block) (m : Machine) (done : Nat) (allowTail : Bool) (behind i j : Nat)
        (tests k : List Instr) (host : Host) (σ : Store) (os : List Value) (line : Nat),
        ArmsCode l cases m.frame.closure.code done allowTail behind i j tests k →
        ∃ led : Led,
          led.choice = chooseArm (σ.root m.frame.closure.home).findType a (armShapes cases) ∧
          m.LedTo host σ os line (armShapes cases).length tests k a led ∧
          m.LedTo host σ os line (armShapes cases).length tests k b led := by
  refine ⟨fun _ _ _ => rfl, Value.equal_comm, fun a b c => a.equal_trans, Value.equal_self, ?_⟩
  intro κ P a b ha hb h
  have hsame : ∀ find shape, Shape.accepts find shape a = Shape.accepts find shape b :=
    fun find shape => accepts_congr shape h ha hb
  refine ⟨hsame, fun l cases m done allowTail behind i j tests k host σ os line hc => ?_⟩
  obtain ⟨led, hled, hgo⟩ := m.tests_lead host σ os line a hc
  exact ⟨led, hled, hgo a fun _ _ => rfl, hgo b fun s _ => (hsame _ s).symm⟩

/-- The arms `{(:: _ _) -> 1}` and `{_ -> 2}`. -/
def twoArms : List Block :=
  [.result (.function [.type ⟨0, [consName], 1⟩ [.wildcard, .wildcard]] (.result (.literal (.number 1) 1)) 1),
    .result (.function [.wildcard] (.result (.literal (.number 2) 1)) 1)]

/-- A unit that makes the choice between them. -/
def twoArmsCode : Code :=
  .mk [.mk 1 .duplicate, .mk 1 (.jumpIf (.type [consName] [.any, .any]) 1),
      .mk 1 .duplicate, .mk 1 (.jumpIf .any 2), .mk 1 (.fail noMatch),
      .mk 1 (.decompose [consName] 2), .mk 1 .pop, .mk 1 .pop, .mk 1 (.loadNumber 1), .mk 1 (.jump 0),
      .mk 1 .pop, .mk 1 (.loadNumber 2), .mk 1 (.jump 0), .mk 1 .nothing]
    [13, 5, 10]

/-- Lists of the two zeros are equal, and taken by the first arm, both of them. -/
theorem zeros_take_the_first_arm :
    (builtins.list [.number 0]).equal (builtins.list [.number (-0)]) = true ∧
    ∃ led : Led, led.choice = .ok (some 0) ∧
      ∀ v ∈ [builtins.list [.number 0], builtins.list [.number (-0)]],
        (codeMachine twoArmsCode []).LedTo bareHost
          (codeMachine twoArmsCode []).store [] 1 2 twoArmsCode.instrs (twoArmsCode.instrs.drop 4) v led := by
  have hequal : (builtins.list [.number 0]).equal (builtins.list [.number (-0)]) = true := by decide
  have hsound : ∀ x : Float, (builtins.list [.number x]).Sound builtinRegistry fun _ => True :=
    fun x => ⟨by decide, by decide, rfl, trivial, ⟨by decide, rfl⟩, trivial⟩
  have hcode : ArmsCode .empty twoArms twoArmsCode 0 false 0 0 0 twoArmsCode.instrs (twoArmsCode.instrs.drop 4) :=
    ⟨1, 0, _, _, _, _, rfl, rfl, ⟨_, rfl, _, rfl, _, rfl, rfl⟩, ⟨rfl, rfl⟩, by decide,
      2, 0, _, _, _, _, rfl, rfl, rfl, ⟨rfl, rfl⟩, by decide, rfl, rfl⟩
  obtain ⟨led, hled, ha, hb⟩ := (patterns_respect_equality.2.2.2.2 _ _ _ _ (hsound 0) (hsound (-0)) hequal).2
    .empty twoArms (codeMachine twoArmsCode []) 0 false 0 0 0 twoArmsCode.instrs (twoArmsCode.instrs.drop 4) bareHost
    (codeMachine twoArmsCode []).store [] 1 hcode
  refine ⟨hequal, led, hled.trans ?_, ?_⟩
  · rfl
  · intro v hv
    rcases List.mem_cons.mp hv with rfl | hv
    · exact ha
    · exact List.mem_singleton.mp hv ▸ hb

end MatchLang
