import Mathlib.Data.List.Forall2
import MatchLang.Proofs.Lowering.Code

/-! The code of a list literal whose elements are pure. It is put together from its end, so that the last
element comes first; elements that are not pure are evaluated in their order before, and kept in slots. For
pure elements there is code of both kinds. -/

namespace MatchLang

/-- What a pure element comes to: the code of a function has been made already. -/
inductive Item where
  | literal (value : Literal) (line : Nat)
  | function (code : Code) (arity line : Nat)
  | list (items : List Item) (line : Nat)

/-- The items of pure elements, with any code that the functions among them can have. -/
inductive Item.Of (l : Links) : Block → Item → Prop where
  | literal (value : Literal) (line : Nat) : Of l (.result (.literal value line)) (.literal value line)
  | function {params body line unit i j r} : PatternsCode l none params line unit.instrs r →
    BlockCode l body unit true i j r [] →
    Of l (.result (.function params body line)) (.function unit params.length line)
  | list {elements items line} : List.Forall₂ (Of l) elements items →
    Of l (.result (.list elements line)) (.list items line)

/-- An item that is no list, or one without elements. -/
def Item.Flat : Item → Prop
  | .list (_ :: _) _ => False
  | _ => True

/-- The instructions that put the value on top of the stack in front of the list below it. -/
def frontCode (line : Nat) (k : List Instr) : List Instr :=
  .mk line (.loadName [consName]) :: .mk line (.call 2) :: k

mutual

/-- The code of an item, lists from the end on. -/
def Item.code : Item → List Instr → List Instr
  | .literal value line, k => .mk line value.op :: k
  | .function code arity line, k => .mk line (.loadFunction code arity) :: k
  | .list items line, k => .mk line (.loadName [emptyName]) :: frontsCode line items k

def frontsCode (line : Nat) : List Item → List Instr → List Instr
  | [], k => k
  | x :: xs, k => frontsCode line xs (x.code (frontCode line k))

end

/-- The code of items in their order, each kept in a slot. -/
def keepCode (line : Nat) : List Item → List Slot → List Instr → List Instr
  | x :: xs, slot :: slots, k => x.code (.mk line (.saveLocal slot) :: keepCode line xs slots k)
  | _, _, k => k

/-- The code of a list whose elements are evaluated in their order. -/
def orderedCode (line : Nat) (items : List Item) (slots : List Slot) (k : List Instr) : List Instr :=
  keepCode line items slots (.mk line (.loadName [emptyName]) :: (consCode line slots ++ k))

section

variable {l : Links} {c : Code}

mutual

theorem ExprCode.item (e : Expr) {tail : Bool} {i j : Nat} {is k : List Instr} (hp : e.isPure)
    (h : ExprCode l e c tail i j is k) :
    ∃ x, Item.Of l (.result e) x ∧ is = x.code k := by
  match e with
  | .literal value line =>
    simp only [ExprCode] at h
    exact ⟨_, .literal value line, h.2⟩
  | .function params body line =>
    simp only [ExprCode] at h
    obtain ⟨unit, r, hparams, hbody, rfl⟩ := h
    exact ⟨_, .function hparams hbody, rfl⟩
  | .list elements line =>
    rw [Expr.isPure] at hp
    simp only [ExprCode, hp, if_true] at h
    obtain ⟨r, rfl, hr⟩ := h
    obtain ⟨xs, hxs, rfl⟩ := PureCode.items elements hp hr
    exact ⟨_, .list hxs, rfl⟩
  | .call _ _ _ | .name _ | .self _ => cases hp
termination_by sizeOf e

theorem BlockCode.item (b : Block) {tail : Bool} {i j : Nat} {is k : List Instr} (hp : b.isPure)
    (h : BlockCode l b c tail i j is k) :
    ∃ x, Item.Of l b x ∧ is = x.code k := by
  match b with
  | .result e =>
    rw [BlockCode] at h
    exact ExprCode.item e hp h
  | .bind _ _ _ _ => cases hp
termination_by sizeOf b

theorem PureCode.items (bs : List Block) {line i j : Nat} {is k : List Instr} (hp : allPure bs)
    (h : PureCode l bs c line i j is k) :
    ∃ xs, List.Forall₂ (Item.Of l) bs xs ∧ is = frontsCode line xs k := by
  match bs with
  | [] =>
    simp only [PureCode] at h
    exact ⟨[], .nil, h.2⟩
  | b :: bs =>
    rw [allPure, Bool.and_eq_true] at hp
    obtain ⟨m, r, hbs, hb⟩ := h
    obtain ⟨x, hx, rfl⟩ := BlockCode.item b hp.1 hb
    obtain ⟨xs, hxs, rfl⟩ := PureCode.items bs hp.2 hbs
    exact ⟨x :: xs, .cons hx hxs, rfl⟩
termination_by sizeOf bs

end

/-- Pure elements, too, can be evaluated in their order. -/
theorem ItemsCode.items {bs : List Block} {slots : List Slot} {line i j : Nat} {is k : List Instr}
    (hp : allPure bs) (h : ItemsCode l bs c line slots i j is k) :
    ∃ xs, List.Forall₂ (Item.Of l) bs xs ∧ slots.length = xs.length ∧ is = keepCode line xs slots k := by
  induction bs generalizing i is slots with
  | nil =>
    simp only [ItemsCode] at h
    obtain ⟨rfl, _, rfl⟩ := h
    exact ⟨[], .nil, rfl, rfl⟩
  | cons b bs ih =>
    rw [allPure, Bool.and_eq_true] at hp
    obtain ⟨m, r, rest, hb, rfl, hbs⟩ := h
    obtain ⟨x, hx, rfl⟩ := BlockCode.item b hp.1 hb
    obtain ⟨xs, hxs, hl, rfl⟩ := ih hp.2 hbs
    exact ⟨x :: xs, .cons hx hxs, congrArg (· + 1) hl, rfl⟩

end

end MatchLang
