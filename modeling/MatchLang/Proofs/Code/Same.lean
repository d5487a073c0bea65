import MatchLang.Value

/-! Code that can be told to be the same. Numbers are not told apart, nor are they told to be equal, so this
is only for code that has none. -/

namespace MatchLang

mutual

def Shape.same : Shape → Shape → Bool
  | .any, .any => true
  | .emptyList, .emptyList => true
  | .unit, .unit => true
  | .text s, .text t => s == t
  | .type p xs, .type q ys => p == q && shapesSame xs ys
  | _, _ => false

def shapesSame : List Shape → List Shape → Bool
  | [], [] => true
  | x :: xs, y :: ys => x.same y && shapesSame xs ys
  | _, _ => false

end

mutual

def Op.same : Op → Op → Bool
  | .nothing, .nothing => true
  | .fail s, .fail t => s == t
  | .pop, .pop => true
  | .duplicate, .duplicate => true
  | .decompose p m, .decompose q n => p == q && m == n
  | .jump i, .jump j => i == j
  | .require x, .require y => x.same y
  | .jumpIf x i, .jumpIf y j => x.same y && i == j
  | .loadLocal x, .loadLocal y => x == y
  | .loadName p, .loadName q => p == q
  | .loadText s, .loadText t => s == t
  | .loadFunction c m, .loadFunction d n => c.same d && m == n
  | .saveLocal x, .saveLocal y => x == y
  | .call m, .call n => m == n
  | .tailCall m, .tailCall n => m == n
  | _, _ => false

def Instr.same : Instr → Instr → Bool
  | .mk l x, .mk k y => l == k && x.same y

def Code.same : Code → Code → Bool
  | .mk is ts, .mk js us => instrsSame is js && ts == us

def instrsSame : List Instr → List Instr → Bool
  | [], [] => true
  | i :: is, j :: js => i.same j && instrsSame is js
  | _, _ => false

end

mutual

theorem Shape.eq_of_same (x y : Shape) (h : x.same y = true) : x = y := by
  match x with
  | .text s => cases y <;> simp_all [Shape.same]
  | .type p xs =>
    cases y with
    | type q ys =>
      simp only [Shape.same, Bool.and_eq_true, beq_iff_eq] at h
      rw [h.1, shapes_eq_of_same xs ys h.2]
    | _ => simp [Shape.same] at h
  | .any | .emptyList | .unit | .number _ => cases y <;> simp_all [Shape.same]

theorem shapes_eq_of_same (xs ys : List Shape) (h : shapesSame xs ys = true) : xs = ys := by
  match xs, ys with
  | [], [] => rfl
  | [], _ :: _ | _ :: _, [] => simp [shapesSame] at h
  | x :: xs, y :: ys =>
    simp only [shapesSame, Bool.and_eq_true] at h
    rw [Shape.eq_of_same x y h.1, shapes_eq_of_same xs ys h.2]

end

mutual

theorem Op.eq_of_same (x y : Op) (h : x.same y = true) : x = y := by
  match x with
  | .require s =>
    cases y with
    | require t => exact congrArg Op.require (Shape.eq_of_same s t (by simpa [Op.same] using h))
    | _ => simp [Op.same] at h
  | .jumpIf s i =>
    cases y with
    | jumpIf t j =>
      simp only [Op.same, Bool.and_eq_true, beq_iff_eq] at h
      rw [Shape.eq_of_same s t h.1, h.2]
    | _ => simp [Op.same] at h
  | .loadFunction c m =>
    cases y with
    | loadFunction d n =>
      simp only [Op.same, Bool.and_eq_true, beq_iff_eq] at h
      rw [Code.eq_of_same c d h.1, h.2]
    | _ => simp [Op.same] at h
  | .nothing | .fail _ | .pop | .duplicate | .decompose _ _ | .jump _ | .loadLocal _ | .loadName _
  | .loadNumber _ | .loadText _ | .saveLocal _ | .publish _ _ | .call _ | .tailCall _
  | .makeNamespace _ _ | .makeType _ _ _ | .importAll _ | .importEntry _ _ =>
    cases y <;> simp_all [Op.same]

theorem Instr.eq_of_same (x y : Instr) (h : x.same y = true) : x = y := by
  match x, y with
  | .mk l x, .mk k y =>
    simp only [Instr.same, Bool.and_eq_true, beq_iff_eq] at h
    rw [h.1, Op.eq_of_same x y h.2]

theorem Code.eq_of_same (x y : Code) (h : x.same y = true) : x = y := by
  match x, y with
  | .mk is ts, .mk js us =>
    simp only [Code.same, Bool.and_eq_true, beq_iff_eq] at h
    rw [instrs_eq_of_same is js h.1, h.2]

theorem instrs_eq_of_same (xs ys : List Instr) (h : instrsSame xs ys = true) : xs = ys := by
  match xs, ys with
  | [], [] => rfl
  | [], _ :: _ | _ :: _, [] => simp [instrsSame] at h
  | x :: xs, y :: ys =>
    simp only [instrsSame, Bool.and_eq_true] at h
    rw [Instr.eq_of_same x y h.1, instrs_eq_of_same xs ys h.2]

end

/-- The same function, as far as it can be told. -/
def Closure.same (f g : Closure) : Bool :=
  f.code.same g.code && (f.id, f.scope, f.home, f.arity, f.module, f.line) =
    (g.id, g.scope, g.home, g.arity, g.module, g.line)

theorem Closure.eq_of_same {f g : Closure} (h : f.same g = true) : f = g := by
  obtain ⟨id, code, scope, home, arity, module, line⟩ := f
  obtain ⟨id', code', scope', home', arity', module', line'⟩ := g
  simp only [same, Bool.and_eq_true, decide_eq_true_eq, Prod.mk.injEq] at h
  obtain ⟨hcode, rfl, rfl, rfl, rfl, rfl, rfl⟩ := h
  obtain rfl := Code.eq_of_same _ _ hcode
  rfl

end MatchLang
