import MatchLang.Proofs.Lowering.Balance
import MatchLang.Proofs.Machine.Frames

/-! The invariant of a run: the store is well-formed, and the code that is left of every task is
balanced over the operands it has. Every step keeps it, imports included, and no step meets a fault of
the machine. -/

namespace MatchLang

/-- The store goes on: nothing is taken away. -/
structure Store.Grows (σ τ : Store) : Prop where
  scopes : σ.scopes.size ≤ τ.scopes.size
  roots : σ.roots.size ≤ τ.roots.size
  paths : ∀ r, (σ.root r).Extends (τ.root r)

namespace Store

variable {scope : Nat} {saves : Nat → Prop} {σ τ υ : Store}

theorem Onto.grows (h : σ.Onto scope saves τ) : σ.Grows τ :=
  ⟨h.scopes, h.roots, h.paths⟩

theorem Grows.refl (σ : Store) : σ.Grows σ :=
  ⟨Nat.le_refl _, Nat.le_refl _, fun _ => .refl _⟩

theorem Grows.trans (h : σ.Grows τ) (h' : τ.Grows υ) : σ.Grows υ :=
  ⟨Nat.le_trans h.scopes h'.scopes, Nat.le_trans h.roots h'.roots,
    fun r => (h.paths r).trans (h'.paths r)⟩

theorem Grows.of_eq (hs : τ.scopes = σ.scopes) (hr : τ.roots = σ.roots) : σ.Grows τ :=
  (Onto.of_eq hs hr : σ.Onto 0 (fun _ => True) τ).grows

theorem Grows.updateRoot {r : Nat} {change : Namespace → Namespace}
    (h : (σ.root r).Extends (change (σ.root r))) : σ.Grows (σ.updateRoot r change) where
  scopes := Nat.le_refl _
  roots := Nat.le_of_eq size_updateRoot.symm
  paths i := by
    rw [root_updateRoot]
    split
    · rename_i hi
      exact hi.1 ▸ h
    · exact .refl _

theorem Grows.newScope {parent : Option Nat} : σ.Grows (σ.newScope parent).2 :=
  (Onto.newScope : σ.Onto 0 (fun _ => True) _).grows

theorem Grows.newRoot {ns : Namespace} (h : (Namespace.empty true).Extends ns) :
    σ.Grows (σ.newRoot ns).2 where
  scopes := Nat.le_refl _
  roots := by simp [Store.newRoot]
  paths i := by
    rw [root_newRoot]
    split
    · rename_i hi
      have he : σ.root i = .empty true := by simp [root, hi, Array.getD]
      rwa [he]
    · exact .refl _

end Store

/-- A task that runs the body of a module and ends with `h` operands. -/
def Task.Ok (κ : Registry) (σ : Store) (h : Nat) (t : Task) : Prop :=
  ∃ code ps b, t.Upper κ σ (.main code h) ps b 0 [] []

theorem Task.Ok.mono {κ κ' : Registry} {σ τ : Store} {h : Nat} {t : Task} (ht : t.Ok κ σ h)
    (hκ : ∀ c, κ.Has c → κ'.Has c) (hσ : σ.Grows τ) : t.Ok κ' τ h := by
  obtain ⟨code, ps, b, above, own, hu⟩ := ht
  exact ⟨code, ps, b, above, own, hu.frames, hu.operands, hu.sound.mono hκ fun _ h => h,
    hu.balanced, fun f hf => Nat.lt_of_lt_of_le (hu.scopes f hf) hσ.scopes,
    Nat.lt_of_lt_of_le hu.root hσ.roots, fun p hp => (hσ.paths _).isSome (hu.knows p hp)⟩

/-- A task and those that wait for it, the last of which ends with `h` operands. -/
def TasksOk (κ : Registry) (σ : Store) (h : Nat) : Task → List Suspended → Prop
  | t, [] => t.Ok κ σ h
  | t, w :: ws => (∃ h', t.Ok κ σ h') ∧ TasksOk κ σ h w.task ws

theorem TasksOk.mono {κ κ' : Registry} {σ τ : Store} {h : Nat} {t : Task} {ws : List Suspended}
    (ht : TasksOk κ σ h t ws) (hκ : ∀ c, κ.Has c → κ'.Has c) (hσ : σ.Grows τ) :
    TasksOk κ' τ h t ws := by
  induction ws generalizing t with
  | nil => exact Task.Ok.mono ht hκ hσ
  | cons w ws ih =>
    obtain ⟨⟨h', ht⟩, hw⟩ := ht
    exact ⟨⟨h', ht.mono hκ hσ⟩, ih hw⟩

/-- The running task, which may be changed as long as it ends in the same way. -/
theorem TasksOk.running {κ : Registry} {σ : Store} {h : Nat} {t : Task} {ws : List Suspended}
    (ht : TasksOk κ σ h t ws) :
    ∃ h', t.Ok κ σ h' ∧ (ws = [] → h' = h) ∧
      ∀ {κ' : Registry} {τ : Store} {t' : Task}, (∀ c, κ.Has c → κ'.Has c) → σ.Grows τ →
        t'.Ok κ' τ h' → TasksOk κ' τ h t' ws := by
  cases ws with
  | nil => exact ⟨h, ht, fun _ => rfl, fun _ _ ht' => ht'⟩
  | cons w ws =>
    obtain ⟨⟨h', ht⟩, hw⟩ := ht
    exact ⟨h', ht, nofun, fun hκ hσ ht' => ⟨⟨h', ht'⟩, hw.mono hκ hσ⟩⟩

structure Machine.Ok (κ : Registry) (h : Nat) (m : Machine) : Prop where
  store : m.store.Sound κ
  tasks : TasksOk κ m.store h m.task m.waiting

def Transition.store : Transition → Store
  | .running m => m.store
  | .finished store _ => store
  | .raised m _ => m.store

/-- A transition from a machine with the store `σ` that keeps the invariant. A run ends with a value if
it should end with an operand. -/
def Transition.Ok (κ : Registry) (h : Nat) (σ : Store) : Transition → Prop
  | .running m => ∃ κ' : Registry, (∀ c, κ.Has c → κ'.Has c) ∧ m.Ok κ' h ∧ σ.Grows m.store
  | .finished τ v => τ.Sound κ ∧ σ.Grows τ ∧ (v.isSome ↔ 0 < h)
  | .raised m f => m.store.Sound κ ∧ σ.Grows m.store ∧ ¬ f.Internal

end MatchLang
