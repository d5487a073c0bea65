import MatchLang.CompileError

/-! Building a unit of code. Instructions are appended; a label is created first and attached later,
once, to the place of the instruction that comes next. -/

namespace MatchLang

/-- A label that is being built: where it stands, once it does, and the line it was created for. -/
structure LabelPlace where
  target : Option Nat
  line : Nat
  deriving DecidableEq, Repr

/-- The instructions and the labels, each in the order they were made. -/
structure Builder where
  instrs : Array Instr
  labels : List LabelPlace

namespace Builder

def empty : Builder := ⟨#[], []⟩

def emit (b : Builder) (line : Nat) (op : Op) : Builder :=
  { b with instrs := b.instrs.push (.mk line op) }

/-- A new label, not attached yet. -/
def freshLabel (b : Builder) (line : Nat) : Nat × Builder :=
  (b.labels.length, { b with labels := b.labels ++ [⟨none, line⟩] })

/-- Let a label stand at the next instruction. -/
def attach (b : Builder) (label line : Nat) : Except CompileError Builder :=
  match b.labels[label]? with
  | some ⟨none, created⟩ =>
    .ok { b with labels := b.labels.set label ⟨some b.instrs.size, created⟩ }
  | _ => .error ⟨.duplicateLabel label, line⟩

/-- The places of labels, the first of them being number `index`; all must be attached. -/
def targetsFrom (index : Nat) : List LabelPlace → Except CompileError (List Nat)
  | [] => .ok []
  | ⟨some t, _⟩ :: ls => (targetsFrom (index + 1) ls).map (t :: ·)
  | ⟨none, line⟩ :: _ => .error ⟨.unattachedLabel index, line⟩

def finish (b : Builder) : Except CompileError Code :=
  (targetsFrom 0 b.labels).map (.mk b.instrs.toList ·)

theorem instrs_emit (b : Builder) (line : Nat) (op : Op) :
    (b.emit line op).instrs.toList = b.instrs.toList ++ [.mk line op] := by
  simp [emit]

theorem instrs_attach {b c : Builder} {label line : Nat} (h : b.attach label line = .ok c) :
    c.instrs = b.instrs := by
  unfold attach at h
  split at h
  · cases h; rfl
  · cases h

end Builder

end MatchLang
