import MatchLang.Proofs.Exports.Writing
import MatchLang.Proofs.Store.Beyond
import MatchLang.Proofs.Value.Every

/-! The functions that a store holds, in its slots and under the names of its roots. What is declared, imported or
saved brings no functions but those of the values that go in. -/

namespace MatchLang

section

variable {P Q : Closure → Prop}

mutual

theorem Value.Every.mono (h : ∀ c, P c → Q c) : (v : Value) → v.Every P → v.Every Q
  | .function c, hv => h c hv
  | .record _ fields, hv => everyValue_mono h fields hv
  | .partialCall _ callee args, hv => ⟨Value.Every.mono h callee hv.1, everyValue_mono h args hv.2⟩
  | .number _, _ | .text _, _ | .constant _, _ | .constructor _, _ | .native _, _ => by trivial

theorem everyValue_mono (h : ∀ c, P c → Q c) : (vs : List Value) → EveryValue P vs → EveryValue Q vs
  | [], _ => by trivial
  | v :: vs, hv => ⟨Value.Every.mono h v hv.1, everyValue_mono h vs hv.2⟩

end

mutual

theorem Value.Sound.every {κ : Registry} : {v : Value} → v.Sound κ P → v.Every P
  | .function _, h => h
  | .record _ _, h => SoundAll.every h.2.2.2
  | .partialCall _ _ _, h => ⟨Value.Sound.every h.1, SoundAll.every h.2.1⟩
  | .number _, _ | .text _, _ | .constant _, _ | .constructor _, _ | .native _, _ => by trivial

theorem SoundAll.every {κ : Registry} : {vs : List Value} → SoundAll κ P vs → EveryValue P vs
  | [], _ => by trivial
  | _ :: _, h => ⟨Value.Sound.every h.1, SoundAll.every h.2⟩

end

theorem Case.value_every {c : Case} : c.value.Every P := by
  unfold Case.value
  split <;> trivial

end

namespace Namespace

variable {P Q : Closure → Prop} {ns after source target : Namespace} {path : List String} {name : String}
  {v : Value} {t : DataType}

/-- Every function in a tree of names has a property. -/
def Every (P : Closure → Prop) (ns : Namespace) : Prop :=
  ∀ q n v, ns.valueAt? q n = some v → v.Every P

theorem Every.mono (h : ns.Every P) (hp : ∀ c, P c → Q c) : ns.Every Q :=
  fun q n v hv => (h q n v hv).mono hp

theorem Every.findValue (h : ns.Every P) (hv : ns.findValue path = .ok v) : v.Every P := by
  obtain ⟨n, _, hv⟩ := findValue_eq_ok.mp hv
  exact h _ n v hv

theorem Every.publishIn (h : ns.Every P) (hv : v.Every P) (hp : Machine.publishIn ns path name v = .ok after) :
    after.Every P := by
  obtain ⟨hs, rfl⟩ := publishIn_eq_ok.mp hp
  intro q n w hw
  rw [valueAt?_setValue hs] at hw
  split at hw
  · exact Option.some.inj hw ▸ hv
  · exact h q n w hw

theorem Every.written {ws : List Writing} (h : ns.Every P) (hw : ns.Written ws after)
    (hws : ∀ w ∈ ws, ∀ q n v, w.at? q n = some v → v.Every P) : after.Every P := by
  have hlast : ∀ q n v, lastWritten ws q n = some v → v.Every P := by
    intro q n v hv
    clear hw
    induction ws with
    | nil => cases hv
    | cons w ws ih =>
      obtain ⟨hw, hws⟩ := List.forall_mem_cons.mp hws
      rcases Option.or_eq_some_iff.mp hv with hv | ⟨-, hv⟩
      · exact ih hws hv
      · exact hw q n v hv
  intro q n v hv
  rw [hw q n] at hv
  rcases Option.or_eq_some_iff.mp hv with hv | ⟨-, hv⟩
  · exact hlast q n v hv
  · exact h q n v hv

theorem Every.defineIn {cases : List Case} (h : ns.Every P) (hd : Machine.defineIn ns path name cases = .ok after) :
    after.Every P := by
  unfold Machine.defineIn at hd
  cases hf : ns.find path with
  | error f =>
    rw [hf] at hd
    cases hd
  | ok c =>
    rw [hf] at hd
    cases hd
    have hs : (ns.at? path).isSome := Option.isSome_iff_exists.mpr ⟨c, find_eq_ok.mp hf⟩
    refine h.written (written_addFamily hs) fun w hw q n v hv => ?_
    obtain ⟨k, -, rfl⟩ := List.mem_map.mp hw
    rw [Writing.at?] at hv
    split at hv
    · exact Option.some.inj hv ▸ Case.value_every
    · cases hv

theorem Every.make {isPublic : Bool} (h : ns.Every P) (hm : ns.make path isPublic = .ok after) : after.Every P := by
  intro q n v hv
  rw [written_make hm q n] at hv
  exact h q n v hv

theorem Every.receives {entry space : List String → Prop} (hs : source.Every P) (ht : target.Every P)
    (hr : target.Receives source entry space after) : after.Every P := by
  intro q n v hv
  by_cases he : entry (q ++ [n])
  · rw [hr.value q n he] at hv
    rcases Option.or_eq_some_iff.mp hv with hv | ⟨-, hv⟩
    · obtain ⟨c, hc, hv⟩ := Option.bind_eq_some_iff.mp hv
      exact hs q n v (Option.bind_eq_some_iff.mpr ⟨c, at?_of_publicAt? hc, hv⟩)
    · exact ht q n v hv
  · rw [hr.otherValue q n he] at hv
    exact ht q n v hv

theorem Every.merge {d : Delivery} (hs : source.Every P) (ht : target.Every P) (hn : source.Tidy) :
    (d.merge source target).1.Every P := by
  cases d with
  | whole => exact hs.receives ht (.overlay hn target)
  | entry named =>
    cases named using List.reverseRecOn with
    | nil => exact ht
    | append_singleton front last =>
      have htree : (source.importEntry target (front ++ [last])).1 = (source.entryPart front last).overlay target :=
        importFrom_concat.1
      rw [Delivery.merge, htree]
      exact hs.receives ht (.entryPart (fun _ => hn) target)

theorem seed_every : (builtins.seed (.empty true)).Every P := by
  intro q n v hv
  obtain ⟨c, hc, hv⟩ := Option.bind_eq_some_iff.mp hv
  obtain ⟨-, rfl⟩ := seed_at? hc
  exact (seed_values_sound (Table.mem_of_get? hv) P).every

theorem empty_every {isPublic : Bool} : (empty isPublic).Every P := by
  intro q n v hv
  cases q <;> cases hv

end Namespace

/-- Every function in a store has a property, be it in a slot or under a name. -/
structure Store.Every (P : Closure → Prop) (σ : Store) : Prop where
  slots : ∀ t n v, σ.slot? t n = some v → v.Every P
  names : ∀ r, (σ.root r).Every P
  tidy : ∀ r, (σ.root r).Tidy

namespace Store.Every

variable {P Q : Closure → Prop} {σ τ : Store} {ns : Namespace} {scope slot r : Nat} {v : Value}

theorem mono (h : σ.Every P) (hp : ∀ c, P c → Q c) : σ.Every Q :=
  ⟨fun t n v hv => (h.slots t n v hv).mono hp, fun r => (h.names r).mono hp, h.tidy⟩

theorem lookup (h : σ.Every P) (hv : σ.lookup scope slot = some v) : v.Every P := by
  obtain ⟨t, ht⟩ := lookup_eq_some hv
  exact h.slots t slot v ht

/-- What is neither a value nor a name may change. -/
theorem congr (h : σ.Every P) (hs : τ.scopes = σ.scopes) (hr : τ.roots = σ.roots) : τ.Every P where
  slots t n v hv := h.slots t n v (by rwa [slot?, hs] at hv)
  names r := by
    rw [root, hr]
    exact h.names r
  tidy r := by
    rw [root, hr]
    exact h.tidy r

theorem save (h : σ.Every P) (hv : v.Every P) : (σ.save scope slot v).Every P where
  slots t n w hw := by
    rw [slot?_save] at hw
    split at hw
    · exact Option.some.inj hw ▸ hv
    · exact h.slots t n w hw
  names := h.names
  tidy := h.tidy

theorem newScope {parent : Option Nat} (h : σ.Every P) : (σ.newScope parent).2.Every P :=
  ⟨fun t n v hv => h.slots t n v (slot?_newScope ▸ hv), h.names, h.tidy⟩

theorem setRoot (h : σ.Every P) (hn : ns.Every P) (ht : ns.Tidy) : (σ.setRoot r ns).Every P where
  slots := h.slots
  names i := by
    rw [root_setRoot]
    split
    · exact hn
    · exact h.names i
  tidy i := by
    rw [root_setRoot]
    split
    · exact ht
    · exact h.tidy i

theorem newRoot (h : σ.Every P) (hn : ns.Every P) (ht : ns.Tidy) : (σ.newRoot ns).2.Every P where
  slots := h.slots
  names i := by
    rw [root_newRoot]
    split
    · exact hn
    · exact h.names i
  tidy i := by
    rw [root_newRoot]
    split
    · exact ht
    · exact h.tidy i

theorem newTask (h : σ.Every P) (module : String) (code : Code) : (σ.newTask module code).2.Every P :=
  have hr : σ.newSeededRoot.2.Every P := h.newRoot Namespace.seed_every (Namespace.tidy_of_nil seed_children)
  hr.newScope

/-- Nothing is saved or named at first. -/
theorem initial (console : Console) : (Store.initial console).Every P where
  slots _ _ _ hv := by simp [slot?, Store.initial] at hv
  names r := by
    have he : (Store.initial console).root r = .empty true := by simp [root, Store.initial]
    rw [he]
    exact Namespace.empty_every
  tidy r := by
    have he : (Store.initial console).root r = .empty true := by simp [root, Store.initial]
    rw [he]
    exact Namespace.tidy_of_nil rfl

end Store.Every

end MatchLang
