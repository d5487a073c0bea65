import Mathlib.Logic.Relation
import MatchLang.Proofs.Lowering.Imports
import MatchLang.Proofs.Machine.Returning

/-! Modules that load modules. Each module that is being loaded runs the code of its own text, and it is there
because the one before it imports it; so if imports do not lead back to where they come from, no module is
loaded while it is being loaded already. -/

namespace MatchLang

/-- The text of the file `f` has an import of `g`. -/
def Host.Imports (host : Host) (f g : String) : Prop :=
  ∃ source p, host.Supplies f source ∧ Program.read source = .ok p ∧ g ∈ p.files

/-- No file imports itself, be it through others. -/
def Host.Acyclic (host : Host) : Prop :=
  ∀ f, ¬ Relation.TransGen host.Imports f f

/-- The module `g` is loaded for the module `f`, because it is imported or because it is the prelude. -/
def Host.Needs (host : Host) (f g : String) : Prop :=
  host.Imports f g ∨ f ≠ preludeName ∧ host.withPrelude = true ∧ g = preludeName

/-- The last of some frames, which all others return to. -/
def Frames.bottom (fs : Frames) : Frame :=
  fs.callers.getLastD fs.current

/-- All frames return to the body of a module with some code. -/
structure Frames.Runs (c : Code) (fs : Frames) : Prop where
  code : fs.bottom.closure.code = c
  rest : fs.bottom.rest ⊆ c.instrs

/-- A task runs the text of its module. -/
def Task.Loads (host : Host) (t : Task) : Prop :=
  ∃ source p n next code, host.Supplies t.module source ∧ Program.read source = .ok p ∧
    p.compile false n = .ok (code, next) ∧ t.frames.Runs code

/-- All tasks but the last load modules, each for the one after it, that have not been loaded. -/
def Nest (host : Host) (modules : List (String × Nat)) : List Task → Prop
  | t :: u :: ts =>
    t.Loads host ∧ Table.get? modules t.module = none ∧ (ts ≠ [] → host.Needs u.module t.module) ∧
      Nest host modules (u :: ts)
  | _ => True

set_option maxRecDepth 100000 in
theorem prelude_files {p : Program} (h : Program.read preludeSource = .ok p) : p.files = [] := by
  have hread : (Program.read preludeSource).toOption.map (·.files) = some [] := by
    have hlist : ∃ l, preludeSource = String.ofList l ∧
        (Program.read (String.ofList l)).toOption.map (·.files) = some [] := by
      unfold preludeSource
      refine ⟨_, rfl, ?_⟩
      unfold Program.read scan
      rw [String.toList_ofList]
      decide +kernel
    obtain ⟨l, hl, hr⟩ := hlist
    rw [hl]
    exact hr
  rw [h] at hread
  exact Option.some.inj hread

section

open Relation

variable {host : Host} {f g : String}

theorem Host.prelude_needs_nothing : ¬ host.Needs preludeName g := by
  rintro (⟨source, p, hs, hr, hg⟩ | ⟨hne, -⟩)
  · have hs : source = preludeSource := by
      unfold Supplies at hs
      rw [if_pos rfl] at hs
      exact hs
    subst hs
    rw [prelude_files hr] at hg
    cases hg
  · exact hne rfl

/-- The prelude closes no circle. -/
theorem Host.Acyclic.needs (ha : host.Acyclic) (f : String) : ¬ TransGen host.Needs f f := by
  have hend : ∀ g, TransGen host.Needs f g → g = preludeName ∨ TransGen host.Imports f g := by
    intro g hg
    induction hg with
    | single hn =>
      rcases hn with hi | ⟨_, _, rfl⟩
      · exact .inr (.single hi)
      · exact .inl rfl
    | tail _ hn ih =>
      rcases ih with rfl | hpath
      · exact absurd hn prelude_needs_nothing
      · rcases hn with hi | ⟨_, _, rfl⟩
        · exact .inr (hpath.tail hi)
        · exact .inl rfl
  intro hf
  -- A way that comes to the prelude ends there, so a circle is one of imports alone.
  rcases hend f hf with rfl | hpath
  · obtain ⟨g, hg, -⟩ := TransGen.head'_iff.mp hf
    exact prelude_needs_nothing hg
  · exact ha f hpath

end

section

variable {κ : Registry} {σ : Store} {host : Host} {c : Code} {fs gs : Frames} {f : Frame}
  {change : Frame → Frame} {t t' u : Task} {ts : List Task} {line h : Nat} {op : Op} {k is : List Instr}
  {file : String} {delivery : Delivery} {ms : List (String × Nat)}

namespace Frames

theorem bottom_of_nil (h : fs.callers = []) : fs.bottom = fs.current := by
  rw [bottom, h]
  rfl

theorem bottom_update (h : fs.callers ≠ []) : (fs.update change).bottom = fs.bottom := by
  obtain ⟨current, callers, depth, hd⟩ := fs
  cases callers with
  | nil => exact absurd rfl h
  | cons g gs => rfl

theorem Runs.update (hf : fs.Runs c)
    (hc : (change fs.current).closure = fs.current.closure)
    (hr : (change fs.current).rest ⊆ fs.current.rest ∨
      (change fs.current).rest ⊆ fs.current.closure.code.instrs) : (fs.update change).Runs c := by
  by_cases hn : fs.callers = []
  · have hb : fs.bottom = fs.current := bottom_of_nil hn
    have hb' : (fs.update change).bottom = change fs.current := bottom_of_nil hn
    have hcode : fs.current.closure.code = c := hb ▸ hf.code
    refine ⟨?_, ?_⟩
    · rw [hb', hc]
      exact hcode
    · rw [hb']
      rcases hr with hr | hr
      · exact List.Subset.trans hr (hb ▸ hf.rest)
      · exact hcode ▸ hr
  · have hb : (fs.update change).bottom = fs.bottom := bottom_update hn
    exact ⟨hb ▸ hf.code, hb ▸ hf.rest⟩

theorem Runs.push (hf : fs.Runs c) : (fs.push f).Runs c := by
  have hb : (fs.push f).bottom = fs.bottom := List.getLastD_cons ..
  exact ⟨hb ▸ hf.code, hb ▸ hf.rest⟩

theorem Runs.pop (hf : fs.Runs c) (hp : fs.pop? = some gs) : gs.Runs c := by
  obtain ⟨current, callers, depth, hd⟩ := fs
  cases callers with
  | nil => cases hp
  | cons g rest =>
    cases hp
    have hb : (g :: rest).getLastD current = rest.getLastD g := List.getLastD_cons ..
    obtain ⟨hcode, hrest⟩ := hf
    unfold bottom at hcode hrest
    rw [hb] at hcode hrest
    exact ⟨hcode, hrest⟩

end Frames

theorem bodyTask_runs {module : String} {scope root : Nat} :
    (bodyTask module c scope root).frames.Runs c :=
  ⟨rfl, List.Subset.refl _⟩

theorem Op.touchesRoot_import (hi : op.import? = some (file, delivery)) : op.touchesRoot = true := by
  cases op with
  | importAll _ | importEntry _ _ => rfl
  | _ => cases hi

theorem Task.Ok.callers_nil (ht : t.Ok κ σ h) (hr : t.frames.current.rest = .mk line op :: k)
    (hop : op.touchesRoot = true) : t.frames.callers = [] := by
  obtain ⟨code, ps, b, above, own, hu⟩ := ht
  have hfs : t.frames.current :: t.frames.callers = above := by
    have hframes := hu.frames
    rw [List.append_nil] at hframes
    exact hframes
  cases hc : t.frames.callers with
  | nil => rfl
  | cons g gs =>
    -- A frame above the body runs a function, whose code leaves the root alone.
    rw [hc] at hfs
    have hb := hu.balanced
    rw [← hfs] at hb
    obtain ⟨own, below, _, _, hin, _⟩ := hb
    have hrest := hin.rest
    rw [hr] at hrest
    rw [hrest.leaves_root rfl] at hop
    cases hop

theorem Task.Loads.needs (hl : t.Loads host) (ht : t.Ok κ σ h)
    (hr : t.frames.current.rest = .mk line op :: k) (hi : op.import? = some (file, delivery)) :
    host.Needs t.module file := by
  obtain ⟨source, p, n, next, code, hs, hp, hc, hruns⟩ := hl
  have hb : t.frames.bottom = t.frames.current := Frames.bottom_of_nil (ht.callers_nil hr (Op.touchesRoot_import hi))
  have hmem : Instr.mk line op ∈ code.instrs := by
    have hrest := hruns.rest
    rw [hb, hr] at hrest
    exact hrest List.mem_cons_self
  exact .inl ⟨source, p, hs, hp, compile_importsFrom hc _ hmem file delivery hi⟩

theorem Task.Loads.of_frames (hl : t.Loads host) (hm : t'.module = t.module)
    (hf : ∀ c, t.frames.Runs c → t'.frames.Runs c) : t'.Loads host := by
  obtain ⟨source, p, n, next, code, hs, hp, hc, hruns⟩ := hl
  exact ⟨source, p, n, next, code, hm ▸ hs, hp, hc, hf _ hruns⟩

namespace Nest

theorem of_head (hn : Nest host ms (t :: ts)) (hm : t'.module = t.module)
    (hf : ∀ c, t.frames.Runs c → t'.frames.Runs c) : Nest host ms (t' :: ts) := by
  cases ts with
  | nil => trivial
  | cons u ts =>
    obtain ⟨hl, hu, hneeds, hrest⟩ := hn
    exact ⟨hl.of_frames hm hf, hm ▸ hu, hm ▸ hneeds, hrest⟩

theorem tail (hn : Nest host ms (t :: ts)) : Nest host ms ts := by
  cases ts with
  | nil => trivial
  | cons u ts => exact hn.2.2.2

/-- A module that is loaded is needed by all those that it is loaded for. -/
theorem needed (hn : Nest host ms (t :: ts)) :
    ∀ u ∈ ts.dropLast, Relation.TransGen host.Needs u.module t.module := by
  induction ts generalizing t with
  | nil => exact nofun
  | cons v ts ih =>
    obtain ⟨_, _, hneeds, hrest⟩ := hn
    cases ts with
    | nil => exact nofun
    | cons w ts =>
      have hv : host.Needs v.module t.module := hneeds (List.cons_ne_nil w ts)
      refine List.forall_mem_cons.mpr ⟨.single hv, fun u hu => ?_⟩
      exact (ih hrest u hu).tail hv

theorem uncached (hn : Nest host ms ts) : ∀ t ∈ ts.dropLast, Table.get? ms t.module = none := by
  induction ts with
  | nil => exact nofun
  | cons t ts ih =>
    cases ts with
    | nil => exact nofun
    | cons u ts => exact List.forall_mem_cons.mpr ⟨hn.2.1, ih hn.2.2.2⟩

theorem remember {file : String} {root : Nat} (hn : Nest host ms ts)
    (hne : ∀ t ∈ ts.dropLast, t.module ≠ file) : Nest host (Table.set ms file root) ts := by
  induction ts with
  | nil => trivial
  | cons t ts ih =>
    cases ts with
    | nil => trivial
    | cons u ts =>
      obtain ⟨hl, hu, hneeds, hrest⟩ := hn
      obtain ⟨ht, hne⟩ := List.forall_mem_cons.mp hne
      refine ⟨hl, ?_, hneeds, ih hrest hne⟩
      rw [Table.get?_set, if_neg ht]
      exact hu

theorem finish {root : Nat} (ha : host.Acyclic) (hn : Nest host ms (t :: ts)) :
    Nest host (Table.set ms t.module root) ts := by
  refine hn.tail.remember fun u hu he => ?_
  exact ha.needs t.module (he ▸ hn.needed u hu)

end Nest

end

end MatchLang
