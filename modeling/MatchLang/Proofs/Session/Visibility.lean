import MatchLang.Proofs.Session.Safety

/-! How public the namespaces of a run are. Four instructions add namespaces to the trees of a run, and
each chooses in its own way how public a new one is; whichever of them are executed, in whatever order and
with whatever outcome, no public namespace comes to stand in a private one, and none ever changes. -/

namespace MatchLang

def Store.Covered (σ : Store) : Prop :=
  ∀ r, (σ.root r).Covered

/-- Every namespace of one store is in another, and as public there. -/
def Store.KeepsNamespaces (σ τ : Store) : Prop :=
  ∀ r path ns, (σ.root r).at? path = some ns →
    ∃ ns', (τ.root r).at? path = some ns' ∧ ns'.isPublic = ns.isPublic

section

variable {κ : Registry} {h : Nat} {σ τ : Store} {ws : List Workspace} {t u : Transition}

theorem Store.Grows.covered (hg : σ.Grows τ) (hc : σ.Covered) : τ.Covered :=
  fun r => (hg.paths r).covered (hc r)

theorem Store.Grows.keepsNamespaces (hg : σ.Grows τ) : σ.KeepsNamespaces τ :=
  fun r path ns hn => (hg.paths r).paths path ns hn

theorem Store.covered_initial (console : Console) : (Store.initial console).Covered := by
  intro r
  have he : (Store.initial console).root r = .empty true := by simp [Store.root, Store.initial]
  rw [he]
  exact Namespace.covered_empty true

theorem Transition.Ok.grows (ht : t.Ok κ h σ) : σ.Grows t.store := by
  cases t with
  | running m =>
    obtain ⟨_, _, _, hg⟩ := ht
    exact hg
  | finished τ v => exact ht.2.1
  | raised m f => exact ht.2.1

/-- Whatever has been run in a session, no tree has a public namespace in a private one. -/
theorem Session.covered (hs : Session σ ws) : σ.Covered := by
  induction hs with
  | begins console => exact Store.covered_initial console
  | hears console _ ih => exact ih
  | runs host fuel module source hs ih =>
    obtain ⟨κ, hσ, _⟩ := hs.sound
    exact (runSource_store hσ).1.covered ih
  | opens host fuel withPrelude module hs ih =>
    obtain ⟨κ, hσ, _⟩ := hs.sound
    exact (openWorkspace_store hσ).1.1.covered ih
  | rescopes hs hw ih => exact Store.Grows.newScope.covered ih
  | continues host fuel line hs hw ih =>
    obtain ⟨κ, hσ, hws⟩ := hs.sound
    exact (runLine_store (hws _ hw) hσ).1.covered ih
  | loads host fuel file hs ih =>
    obtain ⟨κ, hσ, _⟩ := hs.sound
    exact (loadModule_store hσ).1.covered ih
  | takes host fuel file source hs ih =>
    obtain ⟨κ, hσ, _⟩ := hs.sound
    exact (loadText_store hσ).1.covered ih

/-- In every state of a run, failed ones included, no module has a public namespace in a private one;
and what namespaces there were before the run, or at any moment of it, are there later, as public as they
were. -/
theorem visibility_is_settled {p : Program} (hs : Session σ ws) (hp : p.Begins σ ws t)
    (hu : t.Leads u) :
    u.store.Covered ∧ σ.KeepsNamespaces u.store ∧
      ∀ u', u.Leads u' → u.store.KeepsNamespaces u'.store := by
  obtain ⟨κ, hσ, hws⟩ := hs.sound
  obtain ⟨κ', hok⟩ := (hp.ok hσ hws).leads hu
  have hlater : ∀ u', u.Leads u' → u.store.Grows u'.store := by
    intro u' hu'
    have hself : u.Ok κ' p.height u.store := by
      cases u with
      | running m =>
        obtain ⟨κ₁, hκ, hm, _⟩ := hok
        exact ⟨κ₁, hκ, hm, .refl _⟩
      | finished τ v => exact ⟨hok.1, .refl _, hok.2.2⟩
      | raised m f => exact ⟨hok.1, .refl _, hok.2.2⟩
    obtain ⟨_, hok'⟩ := hself.leads hu'
    exact hok'.grows
  exact ⟨hok.grows.covered hs.covered, hok.grows.keepsNamespaces,
    fun u' hu' => (hlater u' hu').keepsNamespaces⟩

end

/-- The program `namespace A { public namespace B {} }`. -/
def exposingProgram : Program :=
  { imports := []
    root := .mk ⟨0, [], 1⟩ true
      [.space (.mk ⟨1, ["A"], 1⟩ false [.space (.mk ⟨2, ["B"], 1⟩ true [])])]
    trailing := none }

def exposingCode : Code :=
  .mk [.mk 1 (.makeNamespace ["A"] false), .mk 1 (.makeNamespace ["A", "B"] true)] []

/-- The program fails at its second namespace, and the first one stays private. -/
theorem refused_namespace_leaves_the_private_one :
    ∃ m, ((codeMachine exposingCode []).step bareHost = .running m ∧
      ∃ m', m.step bareHost = .raised m' (.publicUnderPrivate "A.B") ∧
        ∃ ns, (m'.store.root 0).at? ["A"] = some ns ∧ ns.isPublic = false) :=
  have hb : exposingProgram.Begins (.initial .deaf) [] (.running (codeMachine exposingCode [])) :=
    .module false false "main" rfl
  have h₁ : (Transition.running (codeMachine exposingCode [])).Leads
      ((codeMachine exposingCode []).step bareHost) := .step bareHost .refl
  ⟨_, rfl, _, rfl,
    (visibility_is_settled (.begins .deaf) hb h₁).2.2 _ (.step bareHost .refl) 0 ["A"] _ rfl⟩

end MatchLang
