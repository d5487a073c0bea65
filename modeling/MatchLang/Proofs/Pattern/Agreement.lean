import MatchLang.Proofs.Lowering.Emitted
import MatchLang.Proofs.Namespace.Seed
import MatchLang.Proofs.Pattern.Binding

/-! The two lowerings of a pattern side by side. Where `::` and `Empty` are the built-in cases, the
instructions that store a value under a pattern run to their end exactly when the shape of the pattern
accepts the value and no constant meets a pattern that gives it fields: the test of a constant looks at
its case alone, while taking it apart counts the fields too. -/

namespace MatchLang

/-- Publishing at a path that is there does not fail, and the path stays. -/
theorem Keeper.keepAll_fault_eq_none {w : Keeper} {ps : List Piece} {σ : Store}
    (hw : ∀ path, w.publishAt = some path → ((σ.root w.root).at? path).isSome) :
    (w.keepAll ps σ).2 = none := by
  induction ps generalizing σ with
  | nil => rfl
  | cons p ps ih =>
    cases hp : w.publishAt with
    | none =>
      simp only [keepAll, keep, hp]
      refine ih fun path h => ?_
      rw [hp] at h
      cases h
    | some path =>
      have hn : Machine.publishIn (σ.root w.root) path p.name p.value = _ :=
        publishIn_eq_ok.mpr ⟨hw path hp, rfl⟩
      simp only [keepAll, keep, hp, hn, Except.map]
      refine ih fun path' h => ?_
      rw [hp] at h
      cases h
      have ha : (w.assign p (σ.setRoot w.root
          ((σ.root w.root).updateAt (·.setValue p.name p.value) path))).root w.root =
          (σ.setRoot w.root
            ((σ.root w.root).updateAt (·.setValue p.name p.value) path)).root w.root := by
        unfold assign
        split <;> rfl
      rw [ha, Store.root_setRoot]
      split
      · rw [at?_setValue_isSome]
        exact hw path hp
      · exact hw path hp

/-- The machine `m₂` is at the instructions `k` of the function that `m` runs, with the operands `os`,
after as many steps as there are instructions in between. -/
def Machine.Stores (host : Host) (m : Machine) (os : List Value) (k : List Instr) (m₂ : Machine) :
    Prop :=
  m.walk host (m.frame.rest.length - k.length) = some m₂ ∧ m₂.frame.rest = k ∧ m₂.operands = os

/-- The code of a pattern runs to its end exactly when the value is taken apart without a fault; the
pieces have been kept then. -/
theorem PatternCode.runs_iff {κ : Registry} {P : Closure → Prop} {l : Links}
    {publishAt : Option (List String)} {p : Pattern} {line : Nat} {host : Host} {m : Machine}
    {v : Value} {os : List Value} {k : List Instr} (hc : PatternCode l publishAt p line m.frame.rest k)
    (ho : m.operands = v :: os) (hv : v.Sound κ P) (ht : SoundTypes κ m.home.findType)
    (hp : ∀ path, publishAt = some path → ((m.store.root m.task.root).at? path).isSome) :
    ((∃ m₂, m.Stores host os k m₂) ↔ (p.pieces m.home.findType v).fault = none) ∧
      ∀ m₂, m.Stores host os k m₂ → m₂.store =
        ((m.keeper l publishAt).keepAll (p.pieces m.home.findType v).found m.store).1 := by
  have hw : m.Passes host _ m.store (v :: os) _ _ os k := PatternCode.passes ht p hc hv rfl
  have hself : m.resume m.store (v :: os) m.frame.line m.frame.rest = m := by
    rw [← ho, m.resume_self]
  have hk : ((m.keeper l publishAt).keepAll (p.pieces m.home.findType v).found m.store).2 = none :=
    Keeper.keepAll_fault_eq_none hp
  have hb : (m.keeper l publishAt).bind (p.pieces m.home.findType v) m.store =
      (((m.keeper l publishAt).keepAll (p.pieces m.home.findType v).found m.store).1,
        (p.pieces m.home.findType v).fault) := by
    rw [Keeper.bind, hk, Option.none_or]
  rw [hb] at hw
  cases hf : (p.pieces m.home.findType v).fault with
  | none =>
    rw [hf] at hw
    obtain ⟨line', hw⟩ := hw m.frame.line
    rw [hself] at hw
    refine ⟨⟨fun _ => rfl, fun _ => ⟨_, hw, rfl, rfl⟩⟩, fun m₂ h₂ => ?_⟩
    have he := hw.symm.trans h₂.1
    rw [Option.some.injEq] at he
    rw [← he, Machine.resume_store]
  | some f =>
    rw [hf] at hw
    have hno : ∀ m₂, ¬ m.Stores host os k m₂ := by
      rintro m₂ ⟨hw', _⟩
      obtain ⟨j, hj, m₁, _, _, _, hw, hs⟩ := hw m.frame.line
      rw [hself] at hw
      obtain ⟨m₂, h₁, h₂⟩ := Machine.walk_le hw' hj
      obtain ⟨m₃, h₃, h₄⟩ := Machine.walk_succ_right h₁
      rw [hw] at h₃
      cases h₃
      rw [hs] at h₄
      cases h₄
    refine ⟨⟨fun h => ?_, fun h => ?_⟩, fun m₂ h => (hno m₂ h).elim⟩
    · obtain ⟨m₂, h⟩ := h
      exact (hno m₂ h).elim
    · cases h

/-- The code emitted for a pattern, started with a value on top of the stack, runs to its end exactly
when the shape of the pattern accepts the value and no constant meets a pattern that gives it
fields. -/
theorem storePattern_runs_iff {κ : Registry} {l : Links} {publishAt : Option (List String)}
    {p : Pattern} {line : Nat} {s t : Emitting} {c : Code} {host : Host} {m : Machine} {v : Value}
    {os : List Value} (he : (storePattern l publishAt p line).run s = .ok ((), t))
    (hc : t.Within c) (hm : m.frame.rest = s.after c) (ho : m.operands = v :: os)
    (hv : v.Sound κ fun _ => True) (ht : SoundTypes κ m.home.findType)
    (hcons : m.home.findType [consName] = .ok (.case builtins.cons))
    (hempty : m.home.findType [emptyName] = .ok (.case builtins.empty))
    (hp : ∀ path, publishAt = some path → ((m.store.root m.task.root).at? path).isSome) :
    (∃ m', m.walk host ((s.after c).length - (t.after c).length) = some m' ∧
        m'.frame.rest = t.after c ∧ m'.operands = os) ↔
      p.shape.accepts m.home.findType v = .ok true ∧ p.Bare m.home.findType v := by
  have hcode : PatternCode l publishAt p line m.frame.rest (t.after c) :=
    hm ▸ (storePattern_writes p he).2.2 hc
  rw [← p.pieces_fault_eq_none ht hcons hempty hv, ← hm]
  exact (hcode.runs_iff ho hv ht hp).1

/-- The pattern `[x]`. -/
def singletonPattern : Pattern := .list [.name 0 "x" 1]

/-- Its code takes the head into `x` and asks for the empty list behind it. -/
def singletonCode : Code :=
  .mk [.mk 1 (.decompose ["::"] 2), .mk 1 (.saveLocal ⟨0, "x", 1⟩), .mk 1 (.decompose ["Empty"] 0)]
    []

theorem storePattern_runs_singleton :
    ∃ m', (codeMachine singletonCode [builtins.list [builtins.unitValue]]).walk bareHost 3 =
        some m' ∧ m'.frame.rest = [] ∧ m'.operands = [] :=
  (@storePattern_runs_iff builtinRegistry ⟨[(0, ⟨0, "x", 1⟩)]⟩ none singletonPattern 1 ⟨.empty, 1⟩
    ⟨⟨singletonCode.instrs.toArray, []⟩, 1⟩ singletonCode bareHost
    (codeMachine singletonCode [builtins.list [builtins.unitValue]])
    (builtins.list [builtins.unitValue]) [] rfl ⟨List.prefix_refl _, by simp⟩ rfl rfl
    ⟨rfl, by decide, rfl, ⟨rfl, rfl⟩, ⟨rfl, rfl⟩, trivial⟩ soundTypes_seed seed_findType_cons
    seed_findType_empty nofun).mpr ⟨rfl, trivial, trivial⟩

/-- The pattern `(True x)`. -/
def overfullPattern : Pattern := .type ⟨0, ["True"], 1⟩ [.name 1 "x" 1]

def overfullCode : Code :=
  .mk [.mk 1 (.decompose ["True"] 1), .mk 1 (.saveLocal ⟨0, "x", 1⟩)] []

/-- The shape of `(True x)` accepts `True`, but its code does not bind it. -/
theorem accepted_without_binding :
    (storePattern ⟨[(1, ⟨0, "x", 1⟩)]⟩ none overfullPattern 1).run ⟨.empty, 1⟩ =
        .ok ((), ⟨⟨overfullCode.instrs.toArray, []⟩, 1⟩) ∧
      (builtins.boolValue true).Sound builtinRegistry (fun _ => True) ∧
      SoundTypes builtinRegistry (builtins.seed (.empty true)).findType ∧
      (codeMachine overfullCode [builtins.boolValue true]).home = builtins.seed (.empty true) ∧
      overfullPattern.shape.accepts (builtins.seed (.empty true)).findType (builtins.boolValue true) =
        .ok true ∧
      ∃ m, (codeMachine overfullCode [builtins.boolValue true]).step bareHost =
        .raised m (.wrongParts "True" 1) :=
  ⟨rfl, ⟨rfl, rfl⟩, soundTypes_seed, rfl, rfl, _, rfl⟩

end MatchLang
