import MatchLang.Proofs.Links.Bounds
import MatchLang.Proofs.Lists.Fitting
import MatchLang.Proofs.Pattern.Agreement
import MatchLang.Proofs.Session.Safety

/-! Literals against the patterns of their own shape. A program may give the names `::`, `Empty` and
`Unit` another meaning, as values, as types, or as both; what it can break that way is said exactly. -/

namespace MatchLang

/-- The elements of a list literal, which `[]` has none of. -/
def Expr.elements? : Expr → Option (List Block)
  | .list elements _ => some elements
  | .literal .emptyList _ => some []
  | _ => none

/-- A literal that stands for the value of a name: the name, and the built-in value that the pattern
of the literal asks for. -/
def Literal.standsFor? : Literal → Option (String × Value)
  | .unit => some (unitName, builtins.unitValue)
  | .emptyList => some (emptyName, builtins.emptyList)
  | _ => none

/-- Somewhere on the way from `m` to `m'`, at `m₁`, the value `w` has been put on the stack in the
activation of `m`, and `k` comes next. -/
structure Machine.Leaves (host : Host) (m m' : Machine) (w : Value) (k : List Instr)
    (m₁ : Machine) : Prop where
  before : m.Reaches host m₁
  after : m₁.Reaches host m'
  place : ∃ line, m₁ = m.resume m₁.store (w :: m.operands) line k

/-- An arm with the pattern `p` takes the value on top of the stack if `holds`, and else the next arm
gets it. -/
def Machine.TakesIf (host : Host) (m : Machine) (p : Pattern) (holds : Prop) : Prop :=
  ∀ line line' label start r m₀, m.frame.closure.code.from? label = some start →
    m₀ = m.resume m.store m.operands line
      (.mk line' .duplicate :: .mk line' (.jumpIf p.shape label) :: r) →
    (holds → m₀.walk host 2 = some (m.resume m.store m.operands line' start)) ∧
      (¬ holds → ∀ m₂, m₀.walk host 2 = some m₂ → m₂ = m.resume m.store m.operands line' r)

/-- The code up to `k` runs to its end and leaves the values in the slots of the names. -/
def Machine.Binds (host : Host) (l : Links) (m : Machine) (os : List Value) (xs : List Leaf)
    (vs : List Value) (k : List Instr) : Prop :=
  ∃ m₂, m.Stores host os k m₂ ∧ List.Forall₂ (fun x v => ∃ slot, l.get? x.id = some slot ∧
    m₂.store.slot? m.frame.scope slot.id = some v) xs vs

section

variable {κ : Registry} {P : Closure → Prop} {host : Host} {m m' : Machine} {h : Nat} {l : Links}
  {publishAt : Option (List String)} {line : Nat} {xs : List Leaf} {w : Value} {vs os : List Value}
  {is k : List Instr}

theorem Machine.Ok.ready (hm : m.Ok κ h) : m.Ready κ := by
  obtain ⟨_, ⟨_, _, _, above, own, hu⟩, _, _⟩ := hm.tasks.running
  cases above with
  | nil => exact hu.balanced.elim
  | cons f fs =>
    have hf : m.frame = f := (List.cons.inj hu.frames).1
    exact ⟨hm.store, hf ▸ hu.scopes f List.mem_cons_self, hu.root⟩

/-- The running code is balanced, and the namespaces that are known in it are there. -/
theorem Machine.Ok.current (hm : m.Ok κ h) :
    ∃ s n ps, s.rest = [] ∧ Balanced s n ps m.frame.rest ∧ m.store.Knows m.task.root ps := by
  obtain ⟨_, ⟨_, _, _, above, own, hu⟩, _, _⟩ := hm.tasks.running
  match above with
  | [] => exact hu.balanced.elim
  | [f] =>
    have hf : m.frame = f := (List.cons.inj hu.frames).1
    exact ⟨_, _, _, rfl, hf ▸ hu.balanced.1.rest, hu.knows⟩
  | f :: g :: fs =>
    have hf : m.frame = f := (List.cons.inj hu.frames).1
    obtain ⟨_, _, _, _, hin, _⟩ := hu.balanced
    exact ⟨_, _, [], rfl, hf ▸ hin.rest, nofun⟩

theorem Machine.Ok.operands (hm : m.Ok κ h) : SoundAll κ Closure.Balanced m.operands := by
  obtain ⟨_, ⟨_, _, _, above, own, hu⟩, _, _⟩ := hm.tasks.running
  have ho : m.operands = own ++ [] := hu.operands
  rw [ho, List.append_nil]
  exact hu.sound

/-- An arm's test is the test of its pattern. -/
theorem Machine.takesIf {p : Pattern} {holds : Prop} (ho : m.operands = w :: os)
    (hp : p.shape.accepts m.home.findType w = .ok true ↔ holds) : m.TakesIf host p holds := by
  rintro line line' label start r m₀ hl rfl
  have hfirst : (m.resume m.store m.operands line
      (.mk line' .duplicate :: .mk line' (.jumpIf p.shape label) :: r)).step host =
        .running (m.resume m.store (w :: m.operands) line'
          (.mk line' (.jumpIf p.shape label) :: r)) := by
    rw [Machine.step_resume, ho]
    rfl
  have hjump : (m.resume m.store m.operands line' r).jump label =
      .running (m.resume m.store m.operands line' start) := by
    rw [Machine.jump, Machine.resume_closure, hl]
    rfl
  have htwo : ∀ m₂, (m.resume m.store m.operands line
      (.mk line' .duplicate :: .mk line' (.jumpIf p.shape label) :: r)).walk host 2 = some m₂ ↔
        (m.resume m.store (w :: m.operands) line'
          (.mk line' (.jumpIf p.shape label) :: r)).step host = .running m₂ := by
    intro m₂
    simp only [Machine.walk, hfirst]
    cases (m.resume m.store (w :: m.operands) line'
      (.mk line' (.jumpIf p.shape label) :: r)).step host <;> simp
  constructor
  · intro hh
    rw [htwo, Machine.step_resume, perform_jumpIf_ok (hp.mpr hh)]
    exact hjump
  · intro hh m₂ hw
    rw [htwo, Machine.step_resume] at hw
    rcases ha : p.shape.accepts m.home.findType w with f | b
    · rw [perform_jumpIf_error ha] at hw
      cases hw
    · rw [perform_jumpIf_ok ha] at hw
      cases b with
      | true => exact absurd (hp.mp ha) hh
      | false =>
        cases hw
        rfl

theorem namesPattern_linked (hc : PatternCode l publishAt (namesPattern xs) line is k) :
    ∀ x ∈ xs, ∃ slot, l.get? x.id = some slot := by
  induction xs generalizing is with
  | nil => nofun
  | cons x xs ih =>
    obtain ⟨r, r', _, ⟨slot, hs, _⟩, hxs⟩ := hc
    exact List.forall_mem_cons.mpr ⟨⟨slot, hs⟩, ih hxs⟩

theorem Balanced.after_decompose {s : Stretch} {n i : Nat} {ps : List (List String)}
    {path : List String} (hb : Balanced s n ps (.mk line (.decompose path i) :: k))
    (hs : s.rest = []) : ∃ n', Balanced s n' ps k := by
  cases hb with
  | done _ hr => cases hr.trans hs
  | decompose hb => exact ⟨_, hb⟩

theorem Balanced.after_duplicate {s : Stretch} {n : Nat} {ps : List (List String)}
    (hb : Balanced s n ps (.mk line .duplicate :: k)) (hs : s.rest = []) :
    ∃ n', Balanced s n' ps k := by
  cases hb with
  | done _ hr => cases hr.trans hs
  | duplicate hb => exact ⟨_, hb⟩

theorem Balanced.publish_mem {s : Stretch} {n : Nat} {ps : List (List String)} {name : String}
    {path : List String} (hb : Balanced s n ps (.mk line (.publish name path) :: k))
    (hs : s.rest = []) : path ∈ ps := by
  cases hb with
  | done _ hr => cases hr.trans hs
  | publish hp _ => exact hp

/-- The names of a list are published in a namespace that is known. -/
theorem Balanced.publishes {s : Stretch} {n : Nat} {ps : List (List String)} {path : List String}
    (hb : Balanced s n ps is) (hs : s.rest = [])
    (hc : PatternCode l (some path) (namesPattern xs) line is k) : xs = [] ∨ path ∈ ps := by
  cases xs with
  | nil => exact .inl rfl
  | cons x xs =>
    obtain ⟨r, r', rfl, ⟨slot, _, rfl⟩, _⟩ := hc
    obtain ⟨_, hb⟩ := hb.after_decompose hs
    obtain ⟨_, hb⟩ := hb.after_duplicate hs
    exact .inr (hb.publish_mem hs)

theorem namesPattern_binds_iff
    (hc : PatternCode l publishAt (namesPattern xs) line m.frame.rest k)
    (hd : (xs.map fun x => (l.get? x.id).map Slot.id).Nodup) (hm : m.Ok κ h)
    (ho : m.operands = w :: os) (hw : w.Ok κ) (hl : vs.length = xs.length) :
    m.Binds host l os xs vs k ↔ ∃ c, m.home.findType [emptyName] = .ok (.case c) ∧
      Listed m.home.findType (.constant c) vs w := by
  have ht : SoundTypes κ m.home.findType := (hm.store.roots _).findType
  obtain ⟨s, n, ps, hs, hb, hk⟩ := hm.current
  -- the empty pattern publishes nothing, so its code may as well be that of a local pattern
  obtain ⟨publishAt, hc, hp⟩ : ∃ q, PatternCode l q (namesPattern xs) line m.frame.rest k ∧
      ∀ path, q = some path → ((m.store.root m.task.root).at? path).isSome := by
    cases publishAt with
    | none => exact ⟨none, hc, nofun⟩
    | some path =>
      rcases hb.publishes hs hc with rfl | hpath
      · refine ⟨none, ?_, nofun⟩
        simpa only [namesPattern, List.map_nil, PatternCode, ItemPatternsCode] using hc
      · refine ⟨some path, hc, fun q hq => ?_⟩
        cases hq
        exact hk path hpath
  obtain ⟨hruns, hstore⟩ : ((∃ m₂, m.Stores host os k m₂) ↔ _) ∧ _ := hc.runs_iff ho hw ht hp
  have hkept : ∀ us e, us.length = xs.length → Listed m.home.findType e us w →
      ∀ m₂, m.Stores host os k m₂ → List.Forall₂ (fun x v => ∃ slot, l.get? x.id = some slot ∧
        m₂.store.slot? m.frame.scope slot.id = some v) xs us := by
    intro us e hlen hus m₂ h₂
    have hf := hruns.mp ⟨m₂, h₂⟩
    rw [hstore m₂ h₂, namesPattern_found ht hw hlen hus hf]
    exact Keeper.keepAll_leaves (w := m.keeper l publishAt) hlen.symm (namesPattern_linked hc) hd
      hm.ready.scope (Keeper.keepAll_fault_eq_none hp)
  constructor
  · rintro ⟨m₂, h₂, hvs⟩
    obtain ⟨us, c, hlen, hf, hus⟩ := (namesPattern_pieces_iff ht hw).mp (hruns.mp ⟨m₂, h₂⟩)
    have hslots := hkept us (.constant c) hlen hus m₂ h₂
    have he : us = vs := by
      refine List.right_unique_forall₂' (fun x v v' hv hv' => ?_) hslots hvs
      obtain ⟨slot, hx, hv⟩ := hv
      obtain ⟨slot', hx', hv'⟩ := hv'
      rw [hx, Option.some.injEq] at hx'
      rw [← hx', hv, Option.some.injEq] at hv'
      exact hv'
    exact ⟨c, hf, he ▸ hus⟩
  · rintro ⟨c, hf, hvs⟩
    obtain ⟨m₂, h₂⟩ := hruns.mpr ((namesPattern_pieces_iff ht hw).mpr ⟨vs, c, hl, hf, hvs⟩)
    exact ⟨m₂, h₂, hkept vs _ hl hvs m₂ h₂⟩

/-- A literal that names a value leaves that value. -/
theorem Machine.Ready.via_literal {value : Literal} {i j : Nat} {allowTail : Bool}
    {name : String} (hm : m.Ready κ)
    (hc : ExprCode l (.literal value line) m.frame.closure.code allowTail i j m.frame.rest k)
    (hop : value.op = .loadName [name]) (hw : m.Reaches host m') (hp : m.Past k.length m') :
    ∃ v m₁, m.home.findValue [name] = .ok v ∧
      m.Via host κ (fun _ => False) m' (v :: m.operands) k m₁ ∧ v.Ok κ := by
  simp only [ExprCode] at hc
  exact hm.via_loadName (hop ▸ hc.2) hw hp

/-- The elements of a list literal are evaluated, and the value that is called `::` puts them in front of
the one that is called `Empty`. -/
theorem elements_evaluate {e : Expr} {elements : List Block} {i j : Nat} {allowTail : Bool}
    (he : e.elements? = some elements)
    (hc : ExprCode l e m.frame.closure.code allowTail i j m.frame.rest k)
    (hl : ∀ id slot, l.get? id = some slot → slot.id < i) (hm : m.Ready κ)
    (hw : m.Reaches host m') (hp : m.Past k.length m') :
    ∃ last vs w m₁, m.home.findValue [emptyName] = .ok last ∧
      List.Forall₂ (m.Evaluates host l m') elements vs ∧
      m.Via host κ (l.Touches i) m' (w :: m.operands) k m₁ ∧
      ∀ d : Case, elements = [] ∨ m.home.findValue [consName] = .ok d.value →
        d.Chain last vs w := by
  unfold Expr.elements? at he
  split at he
  · cases he
    obtain ⟨last, vs, w, m₁, hlast, _, hv, _, hvs, hchain⟩ := hc.list_evaluates hl hm hw hp
    exact ⟨last, vs, w, m₁, hlast, hvs, hv, hchain⟩
  · cases he
    obtain ⟨last, m₁, hlast, hv, _⟩ := hm.via_literal hc rfl hw hp
    exact ⟨last, [], last, m₁, hlast, .nil, hv.mono fun _ => False.elim, fun _ _ => rfl⟩
  · cases he

/-- The pattern of a literal asks for the value that the literal should stand for. -/
theorem standsFor_accepts {find : List String → Except Fault DataType} {value : Literal}
    {name : String} {v b : Value} (hb : value.standsFor? = some (name, b))
    (hκ : ∀ c, builtinRegistry.Has c → κ.Has c) (hv : v.Ok κ) :
    value.shape.accepts find v = .ok true ↔ v = b := by
  unfold Literal.standsFor? at hb
  split at hb
  · cases hb
    simp only [Literal.shape, Shape.accepts, Except.ok.injEq]
    exact isUnit_iff hκ hv
  · cases hb
    simp only [Literal.shape, Shape.accepts, Except.ok.injEq]
    exact isEmptyList_iff hκ hv
  · cases hb

theorem standsFor_op {value : Literal} {name : String} {b : Value}
    (hb : value.standsFor? = some (name, b)) : value.op = .loadName [name] := by
  unfold Literal.standsFor? at hb
  split at hb <;> cases hb <;> rfl

/-- A literal pattern is a test. -/
theorem literal_pieces_fault {find : List String → Except Fault DataType} {value : Literal}
    {v : Value} :
    ((Pattern.literal value line).pieces find v).fault = none ↔
      value.shape.accepts find v = .ok true := by
  simp only [Pattern.pieces]
  rcases value.shape.accepts find v with f | b
  · simp [Pieces.failed]
  · cases b <;> simp [Pieces.failed, Pieces.none]

theorem literalPattern_stores_iff {value : Literal} {line' : Nat} {name : String} {v b : Value}
    (hc : PatternCode l publishAt (.literal value line') line m.frame.rest k)
    (hb : value.standsFor? = some (name, b)) (hm : m.Ok κ h) (ho : m.operands = v :: os)
    (hv : v.Ok κ) : (∃ m₂, m.Stores host os k m₂) ↔ v = b := by
  have ht : SoundTypes κ m.home.findType := (hm.store.roots _).findType
  -- a literal pattern binds nothing, so its code is that of a local pattern
  have hlocal : PatternCode l none (.literal value line') line m.frame.rest k := by
    simpa only [PatternCode] using hc
  rw [(hlocal.runs_iff ho hv ht nofun).1, literal_pieces_fault,
    standsFor_accepts hb hm.store.builtin hv]

/-- The value of a list literal meets the patterns of its own shape as the names `::` and `Empty` say.
An arm `[x₁ .. xₙ]` takes it exactly if it is a list of `n` elements by the type `::` and ends in the
built-in empty list; binding it to distinct `x₁ .. xₙ` gives them the values of the elements exactly if it
is the list of these by the type `::` and ends in the case that the type `Empty` is. If the value `::`
makes the case `d`, it has to be the case that the type `::` is. The arm and the binding of `()`, and of
`[]` as a literal pattern, ask for the built-in value. -/
theorem literals_fit_their_patterns {σ : Store} {ws : List Workspace} {p q : Program}
    {t : Transition} {n i j : Nat} {e : Expr} {allowTail : Bool} (hs : Session σ ws)
    (hp : p.Begins σ ws t) (hu : t.Leads (.running m)) (hi : (q.link n).nextSlot ≤ i)
    (hc : ExprCode (q.link n).links e m.frame.closure.code allowTail i j m.frame.rest k)
    (hw : m.Reaches host m') (hpast : m.Past k.length m') :
    (∀ elements, e.elements? = some elements → ∃ last vs w m₁,
      m.home.findValue [emptyName] = .ok last ∧
      List.Forall₂ (m.Evaluates host (q.link n).links m') elements vs ∧
      m.Leaves host m' w k m₁ ∧
      (∀ xs : List Leaf, xs.length = elements.length →
        m₁.TakesIf host (namesPattern xs) (TakenAsList m.home.findType elements.length w) ∧
        ∀ publishAt line k',
          PatternCode (q.link n).links publishAt (namesPattern xs) line k k' →
          (xs.map fun x => ((q.link n).links.get? x.id).map Slot.id).Nodup →
          (m₁.Binds host (q.link n).links m.operands xs vs k' ↔
            ∃ c, m.home.findType [emptyName] = .ok (.case c) ∧
              Listed m.home.findType (.constant c) vs w)) ∧
      ∀ d : Case, elements = [] ∨ m.home.findValue [consName] = .ok d.value →
        (TakenAsList m.home.findType elements.length w ↔
          (elements = [] ∨ d.IsCons m.home.findType) ∧ last = builtins.emptyList) ∧
        ∀ c : Case, Listed m.home.findType (.constant c) vs w ↔
          (elements = [] ∨ d.IsCons m.home.findType) ∧ last = .constant c) ∧
    ∀ value line name b, e = .literal value line → value.standsFor? = some (name, b) →
      ∃ v m₁, m.home.findValue [name] = .ok v ∧ m.Leaves host m' v k m₁ ∧
        ∀ line', m₁.TakesIf host (.literal value line') (v = b) ∧
          ∀ publishAt line k',
            PatternCode (q.link n).links publishAt (.literal value line') line k k' →
            ((∃ m₂, m₁.Stores host m.operands k' m₂) ↔ v = b) := by
  obtain ⟨κ, hσ, hws⟩ := hs.sound
  have hok : ∀ m₁, m.Reaches host m₁ → ∃ κ₁, m₁.Ok κ₁ p.height := by
    intro m₁ h₁
    obtain ⟨_, κ₁, _, hm₁, _⟩ := (hp.ok hσ hws).leads (hu.reaches h₁)
    exact ⟨κ₁, hm₁⟩
  obtain ⟨κ₀, hm⟩ := hok m (.refl m)
  have hl : ∀ id slot, (q.link n).links.get? id = some slot → slot.id < i :=
    fun id slot hs => Nat.lt_of_lt_of_le (link_lt hs) hi
  constructor
  · intro elements he
    obtain ⟨last, vs, w, m₁, hlast, hvs, hv, hchain⟩ := elements_evaluate he hc hl hm.ready hw hpast
    obtain ⟨κ₁, hm₁⟩ := hok m₁ hv.before
    have hlen : elements.length = vs.length := hvs.length_eq
    have hwok : w.Ok κ₁ := by
      have ho := hm₁.operands
      rw [hv.resumed.operands] at ho
      exact ho.1
    have ht : SoundTypes κ₁ m₁.home.findType := (hm₁.store.roots _).findType
    refine ⟨last, vs, w, m₁, hlast, hvs, ⟨hv.before, hv.after, hv.resumed.place⟩, ?_, ?_⟩
    · intro xs hxs
      constructor
      · refine Machine.takesIf hv.resumed.operands ?_
        rw [namesPattern_accepts_iff ht hm₁.store.builtin hwok, hv.resumed.home, hxs]
      · intro publishAt line k' hpat hd
        rw [← hv.resumed.rest] at hpat
        rw [namesPattern_binds_iff hpat hd hm₁ hv.resumed.operands hwok
          (hlen.symm.trans hxs.symm), hv.resumed.home]
    · intro d hd
      have hc := hchain d hd
      have hnil : elements = [] ↔ vs = [] := by
        rw [← List.length_eq_zero_iff, hlen, List.length_eq_zero_iff]
      rw [hnil, hlen]
      refine ⟨hc.taken_iff, fun c => ?_⟩
      rw [hc.listed_iff rfl]
      simp only [and_true, eq_comm]
  · rintro value line name b rfl hb
    obtain ⟨v, m₁, hname, hv, _⟩ := hm.ready.via_literal hc (standsFor_op hb) hw hpast
    obtain ⟨κ₁, hm₁⟩ := hok m₁ hv.before
    have hvok : v.Ok κ₁ := by
      have ho := hm₁.operands
      rw [hv.resumed.operands] at ho
      exact ho.1
    refine ⟨v, m₁, hname, ⟨hv.before, hv.after, hv.resumed.place⟩, fun line' => ⟨?_, ?_⟩⟩
    · refine Machine.takesIf hv.resumed.operands ?_
      simp only [Pattern.shape]
      exact standsFor_accepts hb hm₁.store.builtin hvok
    · intro publishAt line k' hpat
      rw [← hv.resumed.rest] at hpat
      exact literalPattern_stores_iff hpat hb hm₁ hv.resumed.operands hvok

end

/-- The program `let [x] = [()]`. -/
def singletonProgram : Program :=
  { imports := []
    root := .mk ⟨0, [], 1⟩ true
      [.binding (namesPattern [⟨1, "x", 1⟩]) (.result (.list [.result (.literal .unit 1)] 1)) false]
    trailing := none }

def singletonUnit : Code :=
  .mk [.mk 1 (.loadName ["Empty"]), .mk 1 (.loadName ["Unit"]), .mk 1 (.loadName ["::"]),
    .mk 1 (.call 2), .mk 1 (.decompose ["::"] 2), .mk 1 (.saveLocal ⟨0, "x", 1⟩),
    .mk 1 (.decompose ["Empty"] 0)] []

/-- The machine that begins with it. -/
def singletonMachine : Machine :=
  (codeMachine singletonUnit []).updateStore fun s => { s with nextSlot := 1 }

theorem singleton_is_bound :
    ∃ (v : Value) (m₁ : Machine), singletonMachine.Evaluates bareHost (singletonProgram.link 0).links
        (singletonMachine.resume singletonMachine.store
          [builtins.list [builtins.unitValue]] 1 (singletonUnit.instrs.drop 4))
        (.result (.literal .unit 1)) v ∧
      m₁.Binds bareHost (singletonProgram.link 0).links [] [⟨1, "x", 1⟩] [v] [] := by
  have hb : singletonProgram.Begins (.initial .deaf) [] (.running singletonMachine) :=
    @Program.Begins.module _ (.initial .deaf) [] singletonUnit 1 false false "main" rfl
  have hc : ExprCode (singletonProgram.link 0).links (.list [.result (.literal .unit 1)] 1)
      singletonMachine.frame.closure.code false 1 1
      singletonMachine.frame.rest (singletonUnit.instrs.drop 4) := by
    simp only [ExprCode]
    exact ⟨_, rfl, 1, _, ⟨rfl, rfl⟩, rfl, rfl⟩
  have hpat : PatternCode (singletonProgram.link 0).links none (namesPattern [⟨1, "x", 1⟩]) 1
      (singletonUnit.instrs.drop 4) [] :=
    ⟨_, _, rfl, ⟨_, rfl, rfl⟩, rfl⟩
  obtain ⟨last, vs, w, m₁, hlast, hvs, hleaves, hfits, hcons⟩ :=
    (literals_fit_their_patterns (.begins .deaf) hb .refl (Nat.le_refl 1) hc ⟨4, rfl⟩
      ⟨rfl, Nat.le_refl _⟩).1 _ rfl
  cases hlast
  obtain ⟨v, _, hv, hnil, rfl⟩ := List.forall₂_cons_left_iff.mp hvs
  cases hnil
  refine ⟨v, m₁, hv, ((hfits [⟨1, "x", 1⟩] rfl).2 none 1 [] hpat (by decide)).mpr ⟨builtins.empty, rfl, ?_⟩⟩
  exact ((hcons builtins.cons (.inr rfl)).2 builtins.empty).mpr ⟨.inr ⟨rfl, rfl⟩, rfl⟩

/-- Whether a run has failed with a message of its own. -/
def failsWith (message : String) : Except RunError (Option Value) → Bool
  | .error (.runtime ⟨.failed text, _⟩) => text == message
  | _ => false

theorem exists_failure {message : String} {r : Except RunError (Option Value)}
    (h : failsWith message r = true) :
    ∃ f, r = .error (.runtime f) ∧ f.fault = .failed message := by
  unfold failsWith at h
  split at h
  · exact ⟨_, rfl, congrArg Fault.failed (beq_iff_eq.mp h)⟩
  · cases h

/-- Where a case of its own is called `Empty`, a program's `[]` is not taken by the arm `[]`. -/
theorem redeclared_end_is_not_taken : ∃ f σ,
    runSource bareHost 40 (.initial .deaf) "main" "type T = Empty\n(match [] [ { [] -> [] } ])" =
      (.error (.runtime f), σ) ∧ f.fault = .failed noMatch := by
  have h : failsWith noMatch (runSource bareHost 40 (.initial .deaf) "main"
      "type T = Empty\n(match [] [ { [] -> [] } ])").1 = true := by decide +kernel
  generalize runSource bareHost 40 (.initial .deaf) "main"
    "type T = Empty\n(match [] [ { [] -> [] } ])" = r at h ⊢
  obtain ⟨r, σ⟩ := r
  obtain ⟨f, hr, hf⟩ := exists_failure h
  exact ⟨f, σ, congrArg (·, σ) hr, hf⟩

end MatchLang
