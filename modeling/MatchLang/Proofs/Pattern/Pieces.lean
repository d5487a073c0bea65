import Mathlib.Data.List.Basic
import MatchLang.Lowering.Pattern
import MatchLang.Proofs.Value.Sound

/-! What a pattern makes of a value: the values of its names, up to the fault at which taking the
value apart stops. A pattern takes a value apart without a fault when its shape accepts the value and
no constant meets a pattern that gives it fields. -/

namespace MatchLang

/-- A name of a pattern with the value it gets. -/
structure Piece where
  id : Nat
  name : String
  line : Nat
  value : Value

structure Pieces where
  found : List Piece
  fault : Option Fault

namespace Pieces

def none : Pieces := ⟨[], .none⟩

def failed (f : Fault) : Pieces := ⟨[], some f⟩

/-- The second pieces are looked for if the first have been found without a fault. -/
def andThen (a b : Pieces) : Pieces :=
  match a.fault with
  | some f => ⟨a.found, some f⟩
  | .none => ⟨a.found ++ b.found, b.fault⟩

theorem fault_andThen {a b : Pieces} :
    (a.andThen b).fault = .none ↔ a.fault = .none ∧ b.fault = .none := by
  cases h : a.fault <;> simp [andThen, h]

end Pieces

/-- The parts of a value as a value of the type at a path. -/
def takeApart (find : List String → Except Fault DataType) (path : List String) (parts : Nat)
    (v : Value) : Except Fault (List Value) :=
  match find path with
  | .ok t => decompose t parts [v]
  | .error f => .error f

mutual

def Pattern.pieces (find : List String → Except Fault DataType) : Pattern → Value → Pieces
  | .wildcard, _ => .none
  | .name id name line, v => ⟨[{ id, name, line, value := v }], .none⟩
  | .literal value _, v =>
    match value.shape.accepts find v with
    | .ok true => .none
    | .ok false => .failed .failedMatch
    | .error f => .failed f
  | .list items, v => itemPieces find items v
  | .type n params, v =>
    match takeApart find n.parts params.length v with
    | .ok parts => patternPieces find params parts
    | .error f => .failed f

/-- Each item is the head of what is left; after the last the list must be empty. -/
def itemPieces (find : List String → Except Fault DataType) : List Pattern → Value → Pieces
  | [], v =>
    match takeApart find [emptyName] 0 v with
    | .ok _ => .none
    | .error f => .failed f
  | p :: ps, v =>
    match takeApart find [consName] 2 v with
    | .ok [head, tail] => (p.pieces find head).andThen (itemPieces find ps tail)
    | .ok _ => .failed .stackUnderflow
    | .error f => .failed f

def patternPieces (find : List String → Except Fault DataType) :
    List Pattern → List Value → Pieces
  | p :: ps, v :: vs => (p.pieces find v).andThen (patternPieces find ps vs)
  | _, _ => .none

end

mutual

/-- No value without fields meets a pattern of its type that gives it fields. -/
def Pattern.Bare (find : List String → Except Fault DataType) : Pattern → Value → Prop
  | .list items, v => ItemsBare find items v
  | .type n params, v =>
    match find n.parts with
    | .error _ => True
    | .ok (.case _) =>
      match v with
      | .constant _ => params = []
      | .record _ fields => PatternsBare find params fields
      | _ => True
    | .ok _ => PatternsBare find params [v]
  | _, _ => True

def ItemsBare (find : List String → Except Fault DataType) : List Pattern → Value → Prop
  | p :: ps, .record _ [head, tail] => p.Bare find head ∧ ItemsBare find ps tail
  | _, _ => True

def PatternsBare (find : List String → Except Fault DataType) : List Pattern → List Value → Prop
  | p :: ps, v :: vs => p.Bare find v ∧ PatternsBare find ps vs
  | _, _ => True

end

section

variable {find : List String → Except Fault DataType} {path : List String} {c : Case}
  {inners : List Shape} {v : Value} {fields : List Value} {d : Case}

theorem acceptsAll_cons {s : Shape} {ss : List Shape} {vs : List Value} :
    acceptsAll find (s :: ss) (v :: vs) = .ok true ↔
      s.accepts find v = .ok true ∧ acceptsAll find ss vs = .ok true := by
  rcases h : s.accepts find v with f | b
  · simp [acceptsAll, h]
  · cases b <;> simp [acceptsAll, h]

theorem accepts_case_constant (h : find path = .ok (.case c)) :
    (Shape.type path inners).accepts find (.constant d) = .ok (d.id == c.id) := by
  simp only [Shape.accepts, h]

theorem accepts_case_record (h : find path = .ok (.case c)) :
    (Shape.type path inners).accepts find (.record d fields) = .ok true ↔
      d.id = c.id ∧ inners.length = fields.length ∧ acceptsAll find inners fields = .ok true := by
  simp only [Shape.accepts, h]
  by_cases hd : d.id = c.id
  · by_cases hl : inners.length = fields.length <;> simp [hd, hl]
  · simp [hd]

theorem accepts_one {t : DataType} {inner : Shape} (h : find path = .ok t) (hc : ∀ c, t ≠ .case c) :
    (Shape.type path [inner]).accepts find v =
      if t.admits v then inner.accepts find v else .ok false := by
  cases t with
  | case c => exact absurd rfl (hc c)
  | _ => simp only [Shape.accepts, h]

theorem accepts_other {t : DataType} (h : find path = .ok t) (hc : ∀ c, t ≠ .case c)
    (hi : ∀ inner, inners ≠ [inner]) : (Shape.type path inners).accepts find v = .ok false := by
  cases t with
  | case c => exact absurd rfl (hc c)
  | _ => simp only [Shape.accepts, h]

theorem accepts_whole {t : DataType} (h : find path = .ok t) (hc : ∀ c, t ≠ .case c) :
    (Shape.type path inners).accepts find v = .ok true ↔
      t.admits v = true ∧ ∃ inner, inners = [inner] ∧ inner.accepts find v = .ok true := by
  by_cases hi : ∃ inner, inners = [inner]
  · obtain ⟨inner, rfl⟩ := hi
    rw [accepts_one h hc]
    by_cases ha : t.admits v = true <;> simp [ha]
  · have hne : ∀ inner, inners ≠ [inner] := not_exists.mp hi
    rw [accepts_other h hc hne]
    simp [hne]

theorem bare_case {n : QName} {params : List Pattern} (h : find n.parts = .ok (.case c)) :
    (Pattern.type n params).Bare find v ↔
      match v with
      | .constant _ => params = []
      | .record _ fields => PatternsBare find params fields
      | _ => True := by
  simp only [Pattern.Bare, h]

theorem bare_whole {n : QName} {params : List Pattern} {t : DataType}
    (h : find n.parts = .ok t) (hc : ∀ c, t ≠ .case c) :
    (Pattern.type n params).Bare find v ↔ PatternsBare find params [v] := by
  cases t with
  | case c => exact absurd rfl (hc c)
  | _ => simp only [Pattern.Bare, h]

theorem length_patternShapes (ps : List Pattern) : (patternShapes ps).length = ps.length := by
  induction ps with
  | nil => rfl
  | cons p ps ih => simp [patternShapes, ih]

end

section

variable {κ : Registry} {P : Closure → Prop} {find : List String → Except Fault DataType}

theorem takeApart_eq_ok {path : List String} {n : Nat} {v : Value} {parts : List Value}
    (ht : SoundTypes κ find) (hv : v.Sound κ P) (h : takeApart find path n v = .ok parts) :
    parts.length = n ∧ SoundAll κ P parts := by
  cases hf : find path with
  | error f => simp [takeApart, hf] at h
  | ok t =>
    simp only [takeApart, hf] at h
    exact decompose_eq_ok (ht path t hf) hv h

mutual

theorem Pattern.pieces_fault_eq_none (ht : SoundTypes κ find)
    (hcons : find [consName] = .ok (.case builtins.cons))
    (hempty : find [emptyName] = .ok (.case builtins.empty)) :
    (p : Pattern) → {v : Value} → v.Sound κ P →
      ((p.pieces find v).fault = none ↔ p.shape.accepts find v = .ok true ∧ p.Bare find v)
  | .wildcard, _, _ => by simp [Pattern.pieces, Pieces.none, Pattern.shape, Shape.accepts, Pattern.Bare]
  | .name _ _ _, _, _ => by simp [Pattern.pieces, Pattern.shape, Shape.accepts, Pattern.Bare]
  | .literal value _, v, _ => by
    simp only [Pattern.pieces, Pattern.shape, Pattern.Bare, and_true]
    rcases value.shape.accepts find v with f | b
    · simp [Pieces.failed]
    · cases b <;> simp [Pieces.failed, Pieces.none]
  | .list items, v, hv => itemPieces_fault_eq_none ht hcons hempty items hv
  | .type n params, v, hv => by
    simp only [Pattern.pieces, Pattern.shape]
    cases hf : find n.parts with
    | error f => simp [takeApart, hf, Pieces.failed, Shape.accepts]
    | ok t =>
      by_cases hc : ∃ c, t = .case c
      · obtain ⟨c, rfl⟩ := hc
        rw [bare_case hf]
        cases v with
        | record d fields =>
          rw [accepts_case_record hf, length_patternShapes]
          by_cases hd : d.id = c.id
          · have he : fields.length = c.arity := by
              rw [hv.2.2.1, Registry.Has.eq_of_id hv.1 (ht _ _ hf) hd]
            by_cases hp : params.length = c.arity
            · have ih := patternPieces_fault_eq_none ht hcons hempty params hv.2.2.2
              simp [takeApart, hf, decompose, hp, hd, he, ih]
            · simp [takeApart, hf, decompose, hp, hd, he, Pieces.failed]
          · by_cases hp : params.length = c.arity <;>
              simp [takeApart, hf, decompose, hp, hd, Pieces.failed]
        | constant d =>
          rw [accepts_case_constant hf]
          by_cases hd : d.id = c.id
          · have he : c.arity = 0 := by
              rw [← Registry.Has.eq_of_id hv.1 (ht _ _ hf) hd, hv.2]
            by_cases hp : params = []
            · simp [takeApart, hf, decompose, he, hd, hp, patternPieces, Pieces.none]
            · simp [takeApart, hf, decompose, he, hd, hp, Pieces.failed]
          · by_cases hp : params.length = c.arity <;>
              simp [takeApart, hf, decompose, hp, hd, Pieces.failed]
        | _ =>
          by_cases hp : params.length = c.arity <;>
            simp [takeApart, hf, decompose, hp, Pieces.failed, Shape.accepts]
      · rw [not_exists] at hc
        rw [accepts_whole hf hc, bare_whole hf hc]
        have hd : takeApart find n.parts params.length v = decompose t params.length [v] := by
          simp only [takeApart, hf]
        rw [hd, decompose_whole hc]
        by_cases hp : params.length = 1
        · obtain ⟨p, rfl⟩ := List.length_eq_one_iff.mp hp
          have hvs : SoundAll κ P [v] := ⟨hv, trivial⟩
          have ih := patternPieces_fault_eq_none ht hcons hempty [p] hvs
          rw [patternShapes, patternShapes, acceptsAll_cons] at ih
          by_cases ha : t.admits v = true
          · simpa [ha, patternShapes, acceptsAll] using ih
          · simp [ha, Pieces.failed]
        · have hs : ∀ inner, patternShapes params ≠ [inner] := by
            intro inner he
            rw [← length_patternShapes, he] at hp
            exact hp rfl
          simp [hp, hs, Pieces.failed]

theorem itemPieces_fault_eq_none (ht : SoundTypes κ find)
    (hcons : find [consName] = .ok (.case builtins.cons))
    (hempty : find [emptyName] = .ok (.case builtins.empty)) :
    (ps : List Pattern) → {v : Value} → v.Sound κ P →
      ((itemPieces find ps v).fault = none ↔
        (listShape ps).accepts find v = .ok true ∧ ItemsBare find ps v)
  | [], v, hv => by
    have ha : builtins.empty.arity = 0 := rfl
    have hs : (listShape []).accepts find v = .ok (builtins.isEmptyList v) := by
      simp only [listShape, Shape.accepts]
    rw [hs]
    cases v with
    | record d fields =>
      have hd : d.id ≠ builtins.empty.id := by
        intro hd
        have he := hv.2.1
        rw [Registry.Has.eq_of_id hv.1 (ht _ _ hempty) hd, ha] at he
        exact absurd he (Nat.lt_irrefl 0)
      simp [itemPieces, takeApart, hempty, decompose, ha, hd, Pieces.failed,
        Builtins.isEmptyList]
    | constant d =>
      by_cases hd : d.id = builtins.empty.id <;>
        simp [itemPieces, takeApart, hempty, decompose, ha, hd, Pieces.failed, Pieces.none,
          Builtins.isEmptyList, ItemsBare]
    | _ =>
      simp [itemPieces, takeApart, hempty, decompose, ha, Pieces.failed, Builtins.isEmptyList]
  | p :: ps, v, hv => by
    have ha : builtins.cons.arity = 2 := rfl
    rw [listShape]
    cases v with
    | record d fields =>
      rw [accepts_case_record hcons]
      by_cases hd : d.id = builtins.cons.id
      · have he : fields.length = 2 := by
          rw [hv.2.2.1, Registry.Has.eq_of_id hv.1 (ht _ _ hcons) hd, ha]
        obtain ⟨head, tail, rfl⟩ := List.length_eq_two.mp he
        obtain ⟨hh, htl, _⟩ := hv.2.2.2
        have hp := p.pieces_fault_eq_none ht hcons hempty hh
        have hps := itemPieces_fault_eq_none ht hcons hempty ps htl
        simp only [itemPieces, takeApart, hcons, decompose, ha, hd, acceptsAll_cons, ItemsBare]
        simp [acceptsAll, hp, hps, Pieces.fault_andThen, and_and_and_comm]
      · simp [itemPieces, takeApart, hcons, decompose, ha, hd, Pieces.failed]
    | constant d =>
      have hd : d.id ≠ builtins.cons.id := by
        intro hd
        have he := hv.2
        rw [Registry.Has.eq_of_id hv.1 (ht _ _ hcons) hd, ha] at he
        exact absurd he (by omega)
      rw [accepts_case_constant hcons]
      simp [itemPieces, takeApart, hcons, decompose, ha, hd, Pieces.failed]
    | _ =>
      simp [itemPieces, takeApart, hcons, decompose, ha, Pieces.failed, Shape.accepts]

theorem patternPieces_fault_eq_none (ht : SoundTypes κ find)
    (hcons : find [consName] = .ok (.case builtins.cons))
    (hempty : find [emptyName] = .ok (.case builtins.empty)) :
    (ps : List Pattern) → {vs : List Value} → SoundAll κ P vs →
      ((patternPieces find ps vs).fault = none ↔
        acceptsAll find (patternShapes ps) vs = .ok true ∧ PatternsBare find ps vs)
  | [], [], _ => by simp [patternPieces, Pieces.none, patternShapes, acceptsAll, PatternsBare]
  | [], _ :: _, _ => by simp [patternPieces, Pieces.none, patternShapes, acceptsAll, PatternsBare]
  | _ :: _, [], _ => by simp [patternPieces, Pieces.none, patternShapes, acceptsAll, PatternsBare]
  | p :: ps, v :: vs, h => by
    have hp := p.pieces_fault_eq_none ht hcons hempty h.1
    have hps := patternPieces_fault_eq_none ht hcons hempty ps h.2
    simp only [patternPieces, patternShapes, PatternsBare, Pieces.fault_andThen, acceptsAll_cons,
      hp, hps]
    exact and_and_and_comm

end

end

end MatchLang
