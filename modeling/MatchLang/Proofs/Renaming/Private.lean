import MatchLang.Proofs.Grammar.Exactness
import MatchLang.Proofs.Grammar.Numbering
import MatchLang.Proofs.Links.Bounds
import MatchLang.Proofs.Machine.Slots
import MatchLang.Proofs.Renaming.Lowering

/-! What is not public has a name for its own group alone: with another name, it is compiled to the same
code and runs in the same way. -/

namespace MatchLang

/-- The new name read as the old one, and all others as they are. -/
def spelledBack (old new name : String) : String :=
  if name = new then old else name

/-- All leaves of one name in a group have one slot, of that name, and no other leaves have it. -/
theorem GroupsDeclared.slot_of {l : Links} {gs : List (List Declared)} {a b : Nat}
    (h : GroupsDeclared l gs a b) {g : List Declared} (hg : g ∈ gs) {d : Declared} (hd : d ∈ g) :
    ∃ slot : Slot, slot.name = d.leaf.name ∧ ∀ k ∈ gs, ∀ e ∈ k,
      l.get? e.leaf.id = some slot ↔ k = g ∧ e.leaf.name = d.leaf.name := by
  obtain ⟨group, i, j, _, _, hdecl⟩ := h.of_mem hg
  obtain ⟨slot, hs, hname, _⟩ := hdecl.slot (List.mem_map_of_mem hd)
  refine ⟨slot, hname, fun k hk e he => ⟨fun hl => ?_, ?_⟩⟩
  · have hgroup : k = g := h.separate hk hg he hd (hl.trans hs.symm)
    subst hgroup
    obtain ⟨slot', hs', hname', _⟩ := hdecl.slot (List.mem_map_of_mem he)
    rw [hl, Option.some.injEq] at hs'
    exact ⟨rfl, by rw [← hname', ← hs', hname]⟩
  · rintro ⟨rfl, hn⟩
    rw [hdecl.same (List.mem_map_of_mem he) (List.mem_map_of_mem hd) hn, hs]

section

variable {p : Program} {l : Links} {g : List Declared} {x y : String} {slot : Slot}

theorem Program.mem_occurrences {id : Nat} :
    id ∈ p.occurrences l g x slot ↔
      (∃ d ∈ g, d.leaf.name = x ∧ d.leaf.id = id) ∨
        ∃ u ∈ p.uses, l.get? u.id = some slot ∧ u.id = id := by
  simp only [occurrences, leafIds, List.mem_append, List.mem_map, List.mem_filter,
    decide_eq_true_eq]
  constructor
  · rintro (⟨_, ⟨⟨d, hd, rfl⟩, hn⟩, hid⟩ | ⟨u, ⟨hu, hl⟩, hid⟩)
    · exact .inl ⟨d, hd, hn, hid⟩
    · exact .inr ⟨u, hu, hl, hid⟩
  · rintro (⟨d, hd, hn, hid⟩ | ⟨u, hu, hl, hid⟩)
    · exact .inl ⟨d.leaf, ⟨⟨d, hd, rfl⟩, hn⟩, hid⟩
    · exact .inr ⟨u, ⟨hu, hl⟩, hid⟩

/-- The occurrences of a private name are those that are linked to its slot. -/
theorem Program.marks_occurrences {n b : Nat} (n' : Nat) (h : l.Settles p.groups p.uses n b) (hg : g ∈ p.groups)
    (hname : slot.name = x)
    (hslot : ∀ k ∈ p.groups, ∀ e ∈ k, l.get? e.leaf.id = some slot ↔ k = g ∧ e.leaf.name = x)
    (hprivate : ∀ d ∈ g, d.leaf.name = x → d.isPublic = false) (hx : x ≠ matchWord)
    (hleaves : ∀ k ∈ p.groups, ∀ d ∈ k, d.leaf.name ≠ y) (huses : ∀ u ∈ p.uses, u.parts ≠ [y]) :
    Renaming.Marks ⟨slot, y, p.occurrences l g x slot, n, n'⟩ l p.groups p.uses := by
  have hlinked : ∀ id ∈ p.occurrences l g x slot, l.get? id = some slot := by
    intro id hid
    rcases Program.mem_occurrences.mp hid with ⟨d, hd, hn, rfl⟩ | ⟨u, _, hl, rfl⟩
    · exact (hslot g hg d hd).mpr ⟨rfl, hn⟩
    · exact hl
  refine ⟨fun k hk d hd => ⟨⟨hlinked _, fun hl => ?_⟩, hleaves k hk d hd, fun hp hid => ?_⟩,
    fun u hu => ⟨⟨hlinked _, fun hl => ?_⟩, huses u hu, fun hid => ?_⟩⟩
  · obtain ⟨rfl, hn⟩ := (hslot k hk d hd).mp hl
    exact Program.mem_occurrences.mpr (.inl ⟨d, hd, hn, rfl⟩)
  · obtain ⟨rfl, hn⟩ := (hslot k hk d hd).mp (hlinked _ hid)
    rw [hprivate d hd hn] at hp
    cases hp
  · exact Program.mem_occurrences.mpr (.inr ⟨u, hu, hl, rfl⟩)
  · rw [h.2 u hu slot (hlinked _ hid), hname]
    exact fun he => hx (List.singleton_inj.mp he)

end

/-- A name that a group declares and does not publish can be renamed, in the leaves of the group and where it
is used, to one that is not there: the program is compiled to the same code, with the functions inside it,
or refused for the same reason. Only the declaration has the new name. So the program runs in the same way,
up to the name in the fault of a slot that is read before it has a value. -/
theorem private_names_can_be_renamed {ls : List Lexeme} {p : Program}
    (hp : Program.ofLexemes ls = .ok p) (n : Nat) {g : List Declared} (hg : g ∈ p.groups)
    {x y : String} (hx : ∃ d ∈ g, d.leaf.name = x)
    (hprivate : ∀ d ∈ g, d.leaf.name = x → d.isPublic = false) (hxm : x ≠ matchWord)
    (hym : y ≠ matchWord) (hleaves : ∀ k ∈ p.groups, ∀ d ∈ k, d.leaf.name ≠ y)
    (huses : ∀ u ∈ p.uses, u.parts ≠ [y]) :
    ∃ slot : Slot, slot.name = x ∧
      (∀ d ∈ g, d.leaf.name = x → (p.link n).links.get? d.leaf.id = some slot) ∧
      (∀ n', (p.rename (p.occurrences (p.link n).links g x slot) y).compile false n' =
        (p.compile false n).map fun r =>
          (r.1.mapSlots fun s => (s.rename slot y).renumber n n', n' + r.2 - n)) ∧
      ∀ (code code' : Code) (next next' : Nat), p.compile false n = .ok (code, next) →
        (p.rename (p.occurrences (p.link n).links g x slot) y).compile false n = .ok (code', next') →
        ∀ (host : Host) (fuel : Nat) (σ : Store) (module : String),
          ((beginCode { σ with nextSlot := next } host.withPrelude module code).follow host fuel).Alike
            (spelledBack x y)
            ((beginCode { σ with nextSlot := next' } host.withPrelude module code').follow host
              fuel) := by
  have hids := Program.ids_nodup hp
  have hsettles := Program.link_settles n hids
  obtain ⟨d, hd, rfl⟩ := hx
  obtain ⟨slot, hname, hslot⟩ := hsettles.1.slot_of hg hd
  have hmarks := fun n' : Nat => Program.marks_occurrences n' hsettles hg hname hslot hprivate hxm
    hleaves huses
  have hlinked := (hslot g hg d hd).mpr ⟨rfl, rfl⟩
  have hcompile := fun n' => Program.compile_rename hids hym (hmarks n') (link_lt hlinked)
    hsettles.1.le
  refine ⟨slot, hname, fun e he hn => (hslot g hg e he).mpr ⟨rfl, hn⟩, hcompile, ?_⟩
  intro code code' next next' hc hc' host fuel σ module
  have hrenamed := (hcompile n).symm.trans hc'
  rw [hc] at hrenamed
  obtain ⟨rfl, rfl⟩ := Prod.mk.inj (Except.ok.inj hrenamed)
  have hnext : n + next - n = next := Nat.add_sub_cancel_left ..
  have hspelled : ∀ s : Slot, ((s.rename slot y).renumber n n).respell (spelledBack d.leaf.name y) =
      s.respell (spelledBack d.leaf.name y) := by
    intro s
    have hid : n + s.id - n = s.id := Nat.add_sub_cancel_left ..
    unfold Slot.rename
    split
    · rename_i hs
      subst hs
      unfold Slot.respell Slot.renumber spelledBack
      simp [hid, hname]
    · unfold Slot.respell Slot.renumber
      rw [hid]
  have hcode : code.mapSlots (Slot.respell (spelledBack d.leaf.name y)) =
      (code.mapSlots fun s => (s.rename slot y).renumber n n).mapSlots
        (Slot.respell (spelledBack d.leaf.name y)) := by
    rw [Code.mapSlots_mapSlots]
    simp only [hspelled]
  show Ending.Alike _ _ ((beginCode { σ with nextSlot := n + next - n } _ _ _).follow host fuel)
  rw [hnext]
  exact (beginCode_alike hcode _ _ _).follow host fuel

/-- The tokens of `let x = "a"` and `(:: x Empty)`, on two lines. -/
def textPair : List Lexeme :=
  [⟨.wordLet, 1⟩, ⟨.name "x", 1⟩, ⟨.equals, 1⟩, ⟨.text "a", 1⟩, ⟨.openParen, 2⟩, ⟨.name "::", 2⟩,
    ⟨.name "x", 2⟩, ⟨.name "Empty", 2⟩, ⟨.closeParen, 2⟩]

def textPairProgram : Program where
  imports := []
  root := .mk ⟨1, [], 1⟩ true [.binding (.name 0 "x" 1) (.result (.literal (.text "a") 1)) false]
  trailing := some
    { callee := .name ⟨2, ["::"], 2⟩
      args := [.name ⟨3, ["x"], 2⟩, .name ⟨4, ["Empty"], 2⟩]
      line := 2 }

theorem textPair_can_be_renamed :
    Program.ofLexemes textPair = .ok textPairProgram ∧
      ∃ slot : Slot, slot.name = "x" ∧
        (textPairProgram.rename (textPairProgram.occurrences (textPairProgram.link 0).links
          [⟨⟨0, "x", 1⟩, false⟩] "x" slot) "y").compile false 5 =
          (textPairProgram.compile false 0).map fun r =>
            (r.1.mapSlots fun s => (s.rename slot "y").renumber 0 5, 5 + r.2 - 0) := by
  have hread : Program.ofLexemes textPair = .ok textPairProgram := rfl
  have hgroups : textPairProgram.groups = [[⟨⟨0, "x", 1⟩, false⟩], []] := rfl
  have huses : textPairProgram.uses = [⟨2, ["::"], 2⟩, ⟨3, ["x"], 2⟩, ⟨4, ["Empty"], 2⟩] := rfl
  obtain ⟨slot, hname, _, hcompile, _⟩ := private_names_can_be_renamed (y := "y") hread 0
    (g := [⟨⟨0, "x", 1⟩, false⟩]) (x := "x") (by simp [hgroups]) (by simp) (by simp) (by decide)
    (by decide) (by simp [hgroups]) (by simp [huses])
  exact ⟨hread, slot, hname, hcompile 5⟩

end MatchLang
