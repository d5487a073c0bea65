import MatchLang.Proofs.Lists.Coherence

/-! What a binding has published when it fails. The names of a pattern are published one by one as the value is taken
apart, so those met before the failing place are there, and nothing else has changed in any tree of names. -/

namespace MatchLang

namespace Namespace

/-- The tree with pieces published at a path, one after another. -/
def publishAll (path : List String) (ps : List Piece) (ns : Namespace) : Namespace :=
  ps.foldl (fun ns p => ns.updateAt (·.setValue p.name p.value) path) ns

/-- The values at a path are those of the entries, the last of a name first, in front of those before. All
else is the same. -/
structure Adds (path : List String) (ps : List Piece) (ns ns' : Namespace) : Prop where
  there : ∀ name, ns'.valueAt? path name =
    ((ps.reverse.find? (·.name = name)).map Piece.value).or (ns.valueAt? path name)
  elsewhere : ∀ q name, q ≠ path → ns'.valueAt? q name = ns.valueAt? q name
  types : ∀ q name, ns'.typeAt? q name = ns.typeAt? q name
  spaces : ∀ q, (ns'.at? q).map isPublic = (ns.at? q).map isPublic

section

variable {ns : Namespace} {path q : List String} {name n : String} {v : Value}

theorem valueAt?_setValue (h : (ns.at? path).isSome) :
    (ns.updateAt (·.setValue name v) path).valueAt? q n =
      if q = path ∧ n = name then some v else ns.valueAt? q n := by
  have hset : ∀ (ns : Namespace) (n : String),
      (ns.setValue name v).value? n = if n = name then some v else ns.value? n :=
    fun ns n => Table.get?_set _ _ _ _
  have hchild : ∀ (ns : Namespace) (n : String), (ns.setValue name v).child? n = ns.child? n :=
    fun _ _ => rfl
  have hvalue : ∀ (ns : Namespace) (p n : String) (c : Namespace),
      (ns.setChild p c).value? n = ns.value? n := fun _ _ _ _ => rfl
  induction path generalizing ns q with
  | nil =>
    cases q with
    | nil => simp [valueAt?, updateAt, at?, hset]
    | cons p q => simp [valueAt?, updateAt, at?, hchild]
  | cons part path ih =>
    obtain ⟨d, hd, hpath⟩ : ∃ d, ns.child? part = some d ∧ (d.at? path).isSome := by
      rw [at?_cons] at h
      cases hc : ns.child? part with
      | none => simp [hc] at h
      | some d => exact ⟨d, rfl, by simpa [hc] using h⟩
    cases q with
    | nil => simp [valueAt?, updateAt, hd, at?, hvalue]
    | cons p q =>
      by_cases hp : p = part
      · subst hp
        have hi := @ih d q hpath
        simp only [valueAt?] at hi
        simp [valueAt?, updateAt, hd, at?, child?_setChild, hi]
      · simp [valueAt?, updateAt, hd, at?, child?_setChild, hp]

theorem Adds.refl (path : List String) (ns : Namespace) : ns.Adds path [] ns :=
  ⟨fun _ => rfl, fun _ _ _ => rfl, fun _ _ => rfl, fun _ => rfl⟩

theorem Adds.append {ps rest : List Piece} {a b c : Namespace} (h : a.Adds path ps b)
    (h' : b.Adds path rest c) : a.Adds path (ps ++ rest) c where
  there name := by
    rw [h'.there, h.there, List.reverse_append, List.find?_append]
    cases rest.reverse.find? (·.name = name) <;> simp
  elsewhere q name hq := (h'.elsewhere q name hq).trans (h.elsewhere q name hq)
  types q name := (h'.types q name).trans (h.types q name)
  spaces q := (h'.spaces q).trans (h.spaces q)

theorem adds_setValue (p : Piece) (h : (ns.at? path).isSome) :
    ns.Adds path [p] (ns.updateAt (·.setValue p.name p.value) path) where
  there name := by
    rw [valueAt?_setValue h]
    by_cases hn : name = p.name
    · simp [hn]
    · simp [hn, Ne.symm hn]
  elsewhere q name hq := by
    rw [valueAt?_setValue h, if_neg fun hb => hq hb.1]
  types q name := typeAt?_updateAt (fun _ _ => rfl) fun _ _ => rfl
  spaces q := at?_updateAt (fun _ _ => rfl) (fun _ => rfl) fun _ _ _ => rfl

theorem adds_publishAll (ps : List Piece) (h : (ns.at? path).isSome) :
    ns.Adds path ps (ns.publishAll path ps) := by
  induction ps generalizing ns with
  | nil => exact .refl path ns
  | cons p ps ih =>
    have hp : ((ns.updateAt (·.setValue p.name p.value) path).at? path).isSome := by
      rw [at?_setValue_isSome]
      exact h
    exact (adds_setValue p h).append (ih hp)

end

end Namespace

section

variable {w : Keeper} {σ : Store} {ps : List Piece} {path : List String}

theorem Keeper.root_assign {p : Piece} {i : Nat} : (w.assign p σ).root i = σ.root i := by
  unfold assign
  split <;> rfl

/-- What is kept under a path is published there, and only there. -/
theorem Keeper.root_keepAll (hw : w.publishAt = some path) (hr : w.root < σ.roots.size)
    (hp : ((σ.root w.root).at? path).isSome) (i : Nat) :
    (w.keepAll ps σ).1.root i =
      if i = w.root then (σ.root w.root).publishAll path ps else σ.root i := by
  induction ps generalizing σ with
  | nil =>
    by_cases hi : i = w.root
    · simp [keepAll, Namespace.publishAll, hi]
    · simp [keepAll, hi]
  | cons p ps ih =>
    let ns := (σ.root w.root).updateAt (·.setValue p.name p.value) path
    have hk : w.keep p σ = .ok (w.assign p (σ.setRoot w.root ns)) := by
      have hn : Machine.publishIn (σ.root w.root) path p.name p.value = .ok ns :=
        publishIn_eq_ok.mpr ⟨hp, rfl⟩
      simp only [keep, hw, hn, Except.map]
    have hroot : ∀ j, (w.assign p (σ.setRoot w.root ns)).root j =
        if j = w.root then ns else σ.root j := by
      intro j
      rw [root_assign, Store.root_setRoot]
      simp [hr]
    have hsize : (w.assign p (σ.setRoot w.root ns)).roots.size = σ.roots.size := by
      unfold assign
      split <;> exact Store.size_setRoot
    have hself : (w.assign p (σ.setRoot w.root ns)).root w.root = ns := by
      rw [hroot, if_pos rfl]
    have hstep := @ih (w.assign p (σ.setRoot w.root ns)) (hsize ▸ hr)
      (by rw [hself, at?_setValue_isSome]; exact hp)
    simp only [keepAll, hk, hstep, hself, hroot]
    by_cases hi : i = w.root
    · simp [hi, Namespace.publishAll, ns]
    · simp [hi]

end

section

variable {l : Links} {s : Stretch} {n : Nat} {ns : List (List String)} {path : List String}

theorem Pieces.found_andThen_nil {a b : Pieces} (ha : a.found = []) (hb : b.found = []) :
    (a.andThen b).found = [] := by
  unfold andThen
  split <;> simp [ha, hb]

theorem Balanced.tail_of_drop {op : Op} {line : Nat} {k : List Instr}
    (hb : Balanced s n ns (.mk line op :: k)) (hs : s.rest = [])
    (ho : op = .pop ∨ op = .duplicate ∨ (∃ shape, op = .require shape) ∨
      (∃ slot, op = .saveLocal slot) ∨ (∃ p i, op = .decompose p i) ∨ ∃ x p, op = .publish x p) :
    ∃ n', Balanced s n' ns k := by
  cases hb with
  | done _ hr => cases hr.trans hs
  | pop hb | duplicate hb | require hb | decompose hb | saveLocal _ hb | publish _ hb =>
    exact ⟨_, hb⟩
  | _ => simp at ho

mutual

/-- The code of a pattern publishes where a namespace is known, or there is nothing to publish. -/
theorem PatternCode.publishes (hs : s.rest = []) :
    (p : Pattern) → {line n : Nat} → {is k : List Instr} → Balanced s n ns is →
      PatternCode l (some path) p line is k →
      (path ∈ ns ∨ ∀ find v, (p.pieces find v).found = []) ∧ ∃ n', Balanced s n' ns k
  | .wildcard, line, n, is, k, hb, hc => by
    rw [PatternCode] at hc
    subst hc
    exact ⟨.inr fun _ _ => by simp [Pattern.pieces, Pieces.none], hb.tail_of_drop hs (by simp)⟩
  | .name _ _ _, line, n, is, k, hb, hc => by
    obtain ⟨slot, hl, rfl⟩ := hc
    obtain ⟨_, h₁⟩ := hb.tail_of_drop hs (by simp)
    obtain ⟨_, h₂⟩ := h₁.tail_of_drop hs (by simp)
    exact ⟨.inl (h₁.publish_mem hs), h₂.tail_of_drop hs (by simp)⟩
  | .literal value _, line, n, is, k, hb, hc => by
    rw [PatternCode] at hc
    subst hc
    refine ⟨.inr fun find v => ?_, hb.tail_of_drop hs (by simp)⟩
    rw [Pattern.pieces]
    split <;> rfl
  | .list items, line, n, is, k, hb, hc => by
    rw [PatternCode] at hc
    have hi := ItemPatternsCode.publishes hs items hb hc
    simpa only [Pattern.pieces] using hi
  | .type q params, line, n, is, k, hb, hc => by
    obtain ⟨r, rfl, hr⟩ := hc
    obtain ⟨_, h₁⟩ := hb.tail_of_drop hs (by simp)
    obtain ⟨hps, hk⟩ := PatternsCode.publishes hs params h₁ hr
    refine ⟨hps.imp_right fun h find v => ?_, hk⟩
    rw [Pattern.pieces]
    split
    · exact h find _
    · rfl

theorem ItemPatternsCode.publishes (hs : s.rest = []) :
    (ps : List Pattern) → {line n : Nat} → {is k : List Instr} → Balanced s n ns is →
      ItemPatternsCode l (some path) ps line is k →
      (path ∈ ns ∨ ∀ find v, (itemPieces find ps v).found = []) ∧ ∃ n', Balanced s n' ns k
  | [], line, n, is, k, hb, hc => by
    rw [ItemPatternsCode] at hc
    subst hc
    refine ⟨.inr fun find v => ?_, hb.tail_of_drop hs (by simp)⟩
    rw [itemPieces]
    split <;> rfl
  | p :: ps, line, n, is, k, hb, hc => by
    obtain ⟨r, r', rfl, hp, hps⟩ := hc
    obtain ⟨_, h₁⟩ := hb.tail_of_drop hs (by simp)
    obtain ⟨hp', _, h₂⟩ := PatternCode.publishes hs p h₁ hp
    obtain ⟨hps', hk⟩ := ItemPatternsCode.publishes hs ps h₂ hps
    refine ⟨hp'.elim .inl fun hp' => hps'.imp_right fun hps' find v => ?_, hk⟩
    rw [itemPieces]
    split
    · exact Pieces.found_andThen_nil (hp' _ _) (hps' _ _)
    · rfl
    · rfl

theorem PatternsCode.publishes (hs : s.rest = []) :
    (ps : List Pattern) → {line n : Nat} → {is k : List Instr} → Balanced s n ns is →
      PatternsCode l (some path) ps line is k →
      (path ∈ ns ∨ ∀ find vs, (patternPieces find ps vs).found = []) ∧ ∃ n', Balanced s n' ns k
  | [], line, n, is, k, hb, hc => by
    rw [PatternsCode] at hc
    subst hc
    exact ⟨.inr fun _ _ => by simp [patternPieces, Pieces.none], _, hb⟩
  | p :: ps, line, n, is, k, hb, hc => by
    obtain ⟨r, hp, hps⟩ := hc
    obtain ⟨hp', _, h₁⟩ := PatternCode.publishes hs p hb hp
    obtain ⟨hps', hk⟩ := PatternsCode.publishes hs ps h₁ hps
    refine ⟨hp'.elim .inl fun hp' => hps'.imp_right fun hps' find vs => ?_, hk⟩
    cases vs with
    | nil => simp [patternPieces, Pieces.none]
    | cons v vs =>
      rw [patternPieces]
      exact Pieces.found_andThen_nil (hp' _ _) (hps' _ _)

end

end

/-- A fault comes up before the instructions `k` of the function that `m` runs. -/
def Machine.FailsBefore (host : Host) (m : Machine) (k : List Instr) (m' : Machine) (f : Fault) :
    Prop :=
  ∃ j < m.frame.rest.length - k.length, ∃ m₁, m.walk host j = some m₁ ∧ m₁.step host = .raised m' f

theorem Machine.FailsBefore.unique {host : Host} {m m' m'' : Machine} {k : List Instr} {f g : Fault}
    (h : m.FailsBefore host k m' f) (h' : m.FailsBefore host k m'' g) : m' = m'' ∧ f = g := by
  obtain ⟨i, -, m₁, h₁, hs₁⟩ := h
  obtain ⟨j, -, m₂, h₂, hs₂⟩ := h'
  have hr : m₁.Raises host m'' g := Raises.reached ⟨m₂, ⟨j, h₂⟩, hs₂⟩ ⟨i, h₁⟩
  obtain ⟨m₃, ⟨n, hn⟩, hs₃⟩ := hr
  cases n with
  | zero =>
    cases hn
    rw [hs₁] at hs₃
    cases hs₃
    exact ⟨rfl, rfl⟩
  | succ n => simp [walk, hs₁] at hn

/-- Where code passes with a fault or without, there it fails. -/
theorem Machine.Passes.failsBefore_iff {host : Host} {m : Machine} {k : List Instr} {os : List Value}
    {σ : Store} {fault : Option Fault}
    (hp : m.Passes host (m.frame.rest.length - k.length) m.store m.operands m.frame.rest (σ, fault) os
      k) : (∀ f, (∃ m', m.FailsBefore host k m' f) ↔ fault = some f) ∧
        ∀ m' f, m.FailsBefore host k m' f → m'.store = σ := by
  cases fault with
  | some f =>
    obtain ⟨j, hj, m₁, os₁, line₁, is₁, hw, hs⟩ := hp m.frame.line
    rw [m.resume_self] at hw
    have hf : m.FailsBefore host k (m.resume σ os₁ line₁ is₁) f := ⟨j, hj, m₁, hw, hs⟩
    refine ⟨fun g => ⟨?_, fun h => ⟨_, Option.some.inj h ▸ hf⟩⟩, fun m' g h => ?_⟩
    · rintro ⟨m', h⟩
      rw [(hf.unique h).2]
    · rw [(h.unique hf).1, resume_store]
  | none =>
    obtain ⟨line', hw⟩ := hp m.frame.line
    rw [m.resume_self] at hw
    have hno : ∀ m' f, ¬ m.FailsBefore host k m' f := by
      rintro m' f ⟨j, hj, m₁, hw₁, hs₁⟩
      obtain ⟨m₂, hw₂, hrest⟩ := walk_le hw (Nat.le_of_lt hj)
      rw [hw₁] at hw₂
      cases hw₂
      obtain ⟨i, hi⟩ := Nat.exists_eq_succ_of_ne_zero (Nat.sub_ne_zero_of_lt hj)
      rw [hi] at hrest
      simp [walk, hs₁] at hrest
    have hnever : ∀ f, ¬ ∃ m', m.FailsBefore host k m' f := by
      rintro f ⟨m', h⟩
      exact hno m' f h
    exact ⟨fun f => iff_of_false (hnever f) (Option.some_ne_none f).symm, fun m' f h => (hno m' f h).elim⟩

/-- The names of a pattern are published where its path leads, or there are none to publish. -/
theorem Machine.Ok.keepAll {κ : Registry} {h : Nat} {m : Machine} {l : Links} {path : List String}
    {q : Pattern} {line : Nat} {k : List Instr} (hm : m.Ok κ h)
    (hc : PatternCode l (some path) q line m.frame.rest k) (v : Value) {ps : List Piece}
    (hps : ps = (q.pieces m.home.findType v).found) :
    ((m.keeper l (some path)).keepAll ps m.store).2 = none ∧
      (m.store.root m.task.root).Adds path ps ((m.store.root m.task.root).publishAll path ps) ∧
      ∀ r, ((m.keeper l (some path)).keepAll ps m.store).1.root r =
        if r = m.task.root then (m.store.root m.task.root).publishAll path ps else m.store.root r := by
  obtain ⟨s, n, ns, hs, hb, hknown⟩ := hm.current
  obtain ⟨hpath | hnil, -⟩ := PatternCode.publishes hs q hb hc
  · have hat : ((m.store.root m.task.root).at? path).isSome := hknown path hpath
    refine ⟨Keeper.keepAll_fault_eq_none fun p hp => ?_, Namespace.adds_publishAll _ hat,
      Keeper.root_keepAll rfl hm.ready.root hat⟩
    cases hp
    exact hat
  · rw [hps, hnil]
    refine ⟨rfl, .refl path _, fun r => ?_⟩
    by_cases hr : r = m.task.root
    · simp [Keeper.keepAll, Namespace.publishAll, hr]
    · simp [Keeper.keepAll, hr]

/-- A machine at the code of a published pattern, with the value on top of the stack. A fault comes up in it exactly
if taking the value apart meets that fault. The root of the running module then has the names that
were met before, each with its part of the value, and is otherwise as it was; so are all other roots. -/
theorem failed_binding_publishes_what_it_met {σ : Store} {ws : List Workspace} {p : Program}
    {t : Transition} {m : Machine} {l : Links} {path : List String} {q : Pattern} {line : Nat}
    {k : List Instr} {v : Value} {os : List Value} (hs : Session σ ws) (hp : p.Begins σ ws t)
    (hu : t.Leads (.running m)) (hc : PatternCode l (some path) q line m.frame.rest k)
    (ho : m.operands = v :: os) (host : Host) :
    (∀ f, (∃ m', m.FailsBefore host k m' f) ↔ (q.pieces m.home.findType v).fault = some f) ∧
      ∀ m' f, m.FailsBefore host k m' f →
        m'.store.root m.task.root =
            (m.store.root m.task.root).publishAll path (q.pieces m.home.findType v).found ∧
          (m.store.root m.task.root).Adds path (q.pieces m.home.findType v).found
            (m'.store.root m.task.root) ∧
          ∀ r, r ≠ m.task.root → m'.store.root r = m.store.root r := by
  obtain ⟨κ₀, hσ, hws⟩ := hs.sound
  obtain ⟨_, κ, _, hm, _⟩ := (hp.ok hσ hws).leads hu
  have ht : SoundTypes κ m.home.findType := (hm.store.roots _).findType
  have hv : v.Sound κ Closure.Balanced := by
    have h := hm.operands
    rw [ho] at h
    exact h.1
  obtain ⟨hnone, hadds, hroots⟩ := hm.keepAll hc v rfl
  have hpass : m.Passes host (m.frame.rest.length - k.length) m.store m.operands m.frame.rest
      ((m.keeper l (some path)).bind (q.pieces m.home.findType v) m.store) os k :=
    ho ▸ PatternCode.passes ht q hc hv rfl
  rw [Keeper.bind, hnone, Option.none_or] at hpass
  obtain ⟨hiff, hstore⟩ := hpass.failsBefore_iff
  refine ⟨hiff, fun m' f hm' => ?_⟩
  have hr := hroots
  rw [← hstore m' f hm'] at hr
  have hself := hr m.task.root
  rw [if_pos rfl] at hself
  refine ⟨hself, hself ▸ hadds, fun r hne => ?_⟩
  rw [hr, if_neg hne]

/-- The line `let [x ()] = [[] []]`. -/
def halfFittingLine : Program :=
  { imports := []
    root := .mk ⟨0, [], 1⟩ true
      [.binding (.list [.name 1 "x" 1, .literal .unit 1])
        (.result (.list [.result (.literal .emptyList 1), .result (.literal .emptyList 1)] 1)) false]
    trailing := none }

def halfFittingPattern : List Instr :=
  [.mk 1 (.decompose ["::"] 2), .mk 1 .duplicate, .mk 1 (.publish "x" []),
    .mk 1 (.saveLocal ⟨0, "x", 1⟩), .mk 1 (.decompose ["::"] 2), .mk 1 (.require .unit),
    .mk 1 (.decompose ["Empty"] 0)]

def halfFittingCode : Code :=
  .mk ([.mk 1 (.loadName ["Empty"]), .mk 1 (.loadName ["Empty"]), .mk 1 (.loadName ["::"]),
    .mk 1 (.call 2), .mk 1 (.loadName ["Empty"]), .mk 1 (.loadName ["::"]), .mk 1 (.call 2)] ++
      halfFittingPattern) []

def halfFittingMachine : Machine :=
  (codeMachine halfFittingCode []).updateStore fun s => { s with nextSlot := 1 }

/-- The first name is there afterwards, although the second part does not fit. -/
theorem half_fitting_line_publishes : ∃ m m', halfFittingMachine.walk bareHost 7 = some m ∧
    m.FailsBefore bareHost [] m' .failedMatch ∧
    (m.store.root m.task.root).valueAt? [] "x" = none ∧
    (m'.store.root m.task.root).valueAt? [] "x" = some builtins.emptyList := by
  have hb : halfFittingLine.Begins (.initial .deaf) [] (.running halfFittingMachine) :=
    @Program.Begins.module _ (.initial .deaf) [] halfFittingCode 1 true false "main" rfl
  let m : Machine := halfFittingMachine.resume halfFittingMachine.store
    [builtins.list [builtins.emptyList, builtins.emptyList]] 1 halfFittingPattern
  have hw : halfFittingMachine.walk bareHost 7 = some m := rfl
  have hc : PatternCode (halfFittingLine.link 0).links (some [])
      (.list [.name 1 "x" 1, .literal .unit 1]) 1 m.frame.rest [] :=
    ⟨_, _, rfl, ⟨_, rfl, rfl⟩, _, _, rfl, rfl, rfl⟩
  obtain ⟨hiff, hstate⟩ := failed_binding_publishes_what_it_met (.begins .deaf) hb
    (Transition.Leads.refl.reaches ⟨7, hw⟩) hc rfl bareHost
  obtain ⟨m', hm'⟩ := (hiff .failedMatch).mpr rfl
  obtain ⟨-, hadds, -⟩ := hstate m' .failedMatch hm'
  exact ⟨m, m', hw, hm', rfl, hadds.there "x"⟩

/-- Whether a line that is entered in a new workspace fails to match, and publishes a name all the same. -/
def failsButPublishes (line name : String) : Bool :=
  match openWorkspace bareHost 10 (.initial .deaf) false "repl" with
  | (.ok w, σ) =>
    match w.runLine bareHost 40 σ line with
    | (.error (.runtime ⟨.failedMatch, _⟩), σ') =>
      ((σ.root w.root).valueAt? [] name).isNone && ((σ'.root w.root).valueAt? [] name).isSome
    | _ => false
  | _ => false

theorem failsButPublishes_sound {line name : String} (h : failsButPublishes line name = true) :
    ∃ w σ f σ', openWorkspace bareHost 10 (.initial .deaf) false "repl" = (.ok w, σ) ∧
      w.runLine bareHost 40 σ line = (.error (.runtime f), σ') ∧ f.fault = .failedMatch ∧
      (σ.root w.root).valueAt? [] name = none ∧ (σ'.root w.root).valueAt? [] name ≠ none := by
  unfold failsButPublishes at h
  split at h
  · rename_i w σ ho
    split at h
    · rename_i trace σ' hr
      have hx := Bool.and_eq_true_iff.mp h
      exact ⟨w, σ, _, σ', ho, hr, rfl, Option.isNone_iff_eq_none.mp hx.1,
        Option.isSome_iff_ne_none.mp hx.2⟩
    · cases h
  · cases h

theorem failed_line_leaves_a_name : ∃ w σ f σ',
    openWorkspace bareHost 10 (.initial .deaf) false "repl" = (.ok w, σ) ∧
      w.runLine bareHost 40 σ "let [x ()] = [[] []]" = (.error (.runtime f), σ') ∧
      f.fault = .failedMatch ∧ (σ.root w.root).valueAt? [] "x" = none ∧
      (σ'.root w.root).valueAt? [] "x" ≠ none := by
  have h : failsButPublishes "let [x ()] = [[] []]" "x" = true := by decide +kernel
  exact failsButPublishes_sound h

end MatchLang
