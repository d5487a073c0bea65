import MatchLang.Machine.Call
import MatchLang.Machine.Test
import MatchLang.Proofs.Code.Slots

/-! The code of functions and the scopes they were made in, changed in all values and names. Nothing that is
done with values looks at either of them. -/

namespace MatchLang

section

variable (f : Code → Code) (u : Nat → Nat)

def Closure.recode (c : Closure) : Closure :=
  { c with code := f c.code, scope := u c.scope }

mutual

def Value.recode : Value → Value
  | .function c => .function (c.recode f u)
  | .record c vs => .record c (valuesRecode vs)
  | .partialCall id callee args => .partialCall id callee.recode (valuesRecode args)
  | .number x => .number x
  | .text s => .text s
  | .constant c => .constant c
  | .constructor c => .constructor c
  | .native g => .native g

def valuesRecode : List Value → List Value
  | [] => []
  | v :: vs => v.recode :: valuesRecode vs

end

/-- The entries of a table of values. -/
def entriesRecode (t : List (String × Value)) : List (String × Value) :=
  t.map fun e => (e.1, e.2.recode f u)

mutual

def Namespace.recode : Namespace → Namespace
  | .mk isPublic values types children =>
    .mk isPublic (entriesRecode f u values) types (childrenRecode children)

def childrenRecode : List (String × Namespace) → List (String × Namespace)
  | [] => []
  | (name, ns) :: rest => (name, ns.recode) :: childrenRecode rest

end

theorem valuesRecode_eq (vs : List Value) : valuesRecode f u vs = vs.map (·.recode f u) := by
  induction vs with
  | nil => rfl
  | cons v vs ih => rw [valuesRecode, List.map_cons, ih]

theorem childrenRecode_eq (cs : List (String × Namespace)) :
    childrenRecode f u cs = cs.map fun e => (e.1, e.2.recode f u) := by
  induction cs with
  | nil => rfl
  | cons e cs ih => rw [childrenRecode, List.map_cons, ih]

end

section

variable {f : Code → Code} {u : Nat → Nat}

@[simp] theorem Closure.text_recode (c : Closure) : (c.recode f u).text = c.text := rfl

@[simp] theorem Value.arity?_recode (v : Value) : (v.recode f u).arity? = v.arity? := by
  match v with
  | .partialCall id callee args =>
    rw [Value.recode, arity?, arity?, Value.arity?_recode callee, valuesRecode_eq,
      List.length_map]
  | .number _ | .text _ | .record _ _ | .constant _ | .function _ | .constructor _ | .native _ => rfl

@[simp] theorem Value.isCallable_recode (v : Value) :
    (v.recode f u).isCallable = v.isCallable := by
  unfold isCallable
  rw [arity?_recode]

@[simp] theorem Value.case?_recode (v : Value) : (v.recode f u).case? = v.case? := by
  cases v <;> rfl

@[simp] theorem Value.typeName_recode (v : Value) : (v.recode f u).typeName = v.typeName := by
  cases v <;> rfl

mutual

theorem Value.writeInner_recode (v : Value) (before : String) :
    (v.recode f u).writeInner before = v.writeInner before := by
  match v with
  | .function c | .number _ | .text _ | .constant _ | .constructor _ | .native _ => rfl
  | .record c vs =>
    rw [Value.recode, Value.writeInner, Value.writeInner, writeFields_recode vs]
  | .partialCall _ callee _ =>
    rw [Value.recode, Value.writeInner, Value.writeInner, Value.writeInner_recode callee]

theorem writeFields_recode (vs : List Value) (before : String) :
    writeFields (valuesRecode f u vs) before = writeFields vs before := by
  match vs with
  | [] => rfl
  | v :: vs =>
    rw [valuesRecode, writeFields, writeFields, Value.writeInner_recode v,
      writeFields_recode vs]

end

@[simp] theorem Value.display_recode (v : Value) : (v.recode f u).display = v.display := by
  cases v with
  | text s => rfl
  | _ => exact Value.writeInner_recode _ _

mutual

theorem Value.equal_recode (v w : Value) : (v.recode f u).equal (w.recode f u) = v.equal w := by
  match v with
  | .record a fs =>
    cases w with
    | record b gs => rw [Value.recode, Value.recode, Value.equal, Value.equal, equalFields_recode fs gs]
    | _ => rfl
  | .number _ | .text _ | .constant _ | .function _ | .partialCall _ _ _ | .constructor _
  | .native _ => cases w <;> rfl

theorem equalFields_recode (vs ws : List Value) :
    equalFields (valuesRecode f u vs) (valuesRecode f u ws) = equalFields vs ws := by
  match vs, ws with
  | [], [] | [], _ :: _ | _ :: _, [] => rfl
  | v :: vs, w :: ws =>
    rw [valuesRecode, valuesRecode, equalFields, equalFields, Value.equal_recode v w,
      equalFields_recode vs ws]

end

@[simp] theorem DataType.admits_recode (t : DataType) (v : Value) :
    t.admits (v.recode f u) = t.admits v := by
  cases t with
  | number | text => cases v <;> rfl
  | function => exact v.isCallable_recode
  | family name cases =>
    rw [admits, admits, Value.case?_recode]
  | case c => rw [admits, admits, Value.case?_recode]

mutual

theorem Shape.accepts_recode (find : List String → Except Fault DataType) (s : Shape) (v : Value) :
    s.accepts find (v.recode f u) = s.accepts find v := by
  match s with
  | .any | .number _ | .text _ | .emptyList | .unit => cases v <;> rfl
  | .type path inners =>
    unfold Shape.accepts
    cases find path with
    | error e => rfl
    | ok t =>
      cases t with
      | case c =>
        cases v with
        | record d vs =>
          simp only [Value.recode, valuesRecode_eq, List.length_map]
          rw [← valuesRecode_eq, acceptsAll_recode find inners vs]
        | _ => rfl
      | number | text | function | family _ _ =>
        simp only [DataType.admits_recode]
        match inners with
        | [inner] =>
          simp only
          rw [Shape.accepts_recode find inner v]
        | [] | _ :: _ :: _ => rfl

theorem acceptsAll_recode (find : List String → Except Fault DataType) (ss : List Shape)
    (vs : List Value) : acceptsAll find ss (valuesRecode f u vs) = acceptsAll find ss vs := by
  match ss, vs with
  | [], _ => cases vs <;> rfl
  | _ :: _, [] => rfl
  | s :: ss, v :: vs =>
    rw [valuesRecode, acceptsAll, acceptsAll, Shape.accepts_recode find s v]
    rw [acceptsAll_recode find ss vs]

end

theorem decompose_recode (t : DataType) (parts : Nat) (vs : List Value) :
    decompose t parts (vs.map (·.recode f u)) =
      (decompose t parts vs).map (List.map (·.recode f u)) := by
  cases t with
  | case c =>
    by_cases hp : parts ≠ c.arity
    · simp only [decompose, if_pos hp, Except.map]
    · simp only [decompose, if_neg hp]
      cases vs with
      | nil => rfl
      | cons v vs =>
        cases v with
        | record d fields =>
          simp only [List.map_cons, Value.recode, valuesRecode_eq]
          split <;> simp [Except.map, Value.typeName]
        | constant d =>
          simp only [List.map_cons, Value.recode]
          split <;> rfl
        | _ => rfl
  | number | text | function | family _ _ =>
    by_cases hp : parts ≠ 1
    · simp only [decompose, if_pos hp, Except.map]
    · simp only [decompose, if_neg hp]
      cases vs with
      | nil => rfl
      | cons v vs =>
        simp only [List.map_cons, DataType.admits_recode, Value.typeName_recode]
        split <;> rfl

theorem takeOperands_recode (n : Nat) (vs : List Value) :
    takeOperands n (vs.map (·.recode f u)) =
      (takeOperands n vs).map fun r => (r.1.map (·.recode f u), r.2.map (·.recode f u)) := by
  induction n generalizing vs with
  | zero => rfl
  | succ n ih =>
    cases vs with
    | nil => rfl
    | cons v vs =>
      rw [List.map_cons, takeOperands, takeOperands, ih]
      cases takeOperands n vs <;> rfl

namespace Native

theorem twoNumbers_recode (g : Native) (op : Float → Float → Float) (vs : List Value) :
    g.twoNumbers op (vs.map (·.recode f u)) = (g.twoNumbers op vs).map (·.recode f u) := by
  match vs with
  | [] => rfl
  | [v] => cases v <;> rfl
  | [v, w] | v :: w :: _ :: _ => cases v <;> cases w <;> rfl

theorem joinTexts_recode (g : Native) (vs : List Value) :
    g.joinTexts (vs.map (·.recode f u)) = (g.joinTexts vs).map (·.recode f u) := by
  match vs with
  | [] => rfl
  | [v] => cases v <;> rfl
  | [v, w] | v :: w :: _ :: _ => cases v <;> cases w <;> rfl

theorem compareEqual_recode (keep : Bool → Bool) (vs : List Value) :
    compareEqual keep (vs.map (·.recode f u)) = (compareEqual keep vs).map (·.recode f u) := by
  match vs with
  | [v, w] =>
    simp only [List.map_cons, List.map_nil, compareEqual, Value.equal_recode]
    rfl
  | [] | [_] | _ :: _ :: _ :: _ => rfl

theorem compareOrder_recode (g : Native) (keep : Ordering → Bool) (vs : List Value) :
    g.compareOrder keep (vs.map (·.recode f u)) =
      (g.compareOrder keep vs).map (·.recode f u) := by
  match vs with
  | [v, w] =>
    cases v with
    | number x =>
      cases w with
      | number y =>
        simp only [List.map_cons, List.map_nil, Value.recode, compareOrder]
        cases numberOrder? x y <;> rfl
      | _ => rfl
    | _ => cases w <;> rfl
  | [] => rfl
  | [v] => cases v <;> rfl
  | v :: w :: _ :: _ => cases v <;> cases w <;> rfl

theorem readNumber_recode (g : Native) (vs : List Value) :
    g.readNumber (vs.map (·.recode f u)) = (g.readNumber vs).map (·.recode f u) := by
  match vs with
  | [v] =>
    cases v with
    | text s =>
      simp only [List.map_cons, List.map_nil, Value.recode, readNumber]
      cases readNumber? (trimBlanks s.toList) <;> rfl
    | _ => rfl
  | [] => rfl
  | v :: _ :: _ => cases v <;> rfl

theorem showValue_recode (vs : List Value) :
    showValue (vs.map (·.recode f u)) = (showValue vs).map (·.recode f u) := by
  match vs with
  | [v] =>
    simp only [List.map_cons, List.map_nil, showValue, Value.display_recode]
    rfl
  | [] | _ :: _ :: _ => rfl

theorem raiseValue_recode (vs : List Value) :
    raiseValue (vs.map (·.recode f u)) = (raiseValue vs).map (·.recode f u) := by
  match vs with
  | [v] =>
    simp only [List.map_cons, List.map_nil, raiseValue, Value.display_recode]
    rfl
  | [] | _ :: _ :: _ => rfl

/-- The result of a native function has no code in it. -/
theorem compute_recode (g : Native) (vs : List Value) :
    g.compute (vs.map (·.recode f u)) = (g.compute vs).map (·.recode f u) := by
  cases g with
  | add | subtract | multiply | divide | remainder => exact twoNumbers_recode _ _ vs
  | concat => exact joinTexts_recode _ vs
  | equal | different => exact compareEqual_recode _ vs
  | less | lessEqual | greater | greaterEqual => exact compareOrder_recode _ _ vs
  | toNumber => exact readNumber_recode _ vs
  | toText => exact showValue_recode vs
  | raise => exact raiseValue_recode vs
  | printLine | readLine => rfl

theorem run_recode (g : Native) (vs : List Value) (console : Console) :
    g.run (vs.map (·.recode f u)) console =
      (g.run vs console).map fun r => (r.1.recode f u, r.2) := by
  have hcompute : (g.compute (vs.map (·.recode f u))).map (·, console) =
      ((g.compute vs).map (·, console)).map fun r => (r.1.recode f u, r.2) := by
    rw [compute_recode]
    cases g.compute vs <;> rfl
  cases g with
  | printLine =>
    match vs with
    | [v] =>
      simp only [List.map_cons, List.map_nil, run, Value.display_recode]
      rfl
    | [] | _ :: _ :: _ => rfl
  | readLine =>
    match vs with
    | [v] =>
      simp only [List.map_cons, List.map_nil, run, Value.display_recode]
      cases (console.print v.display).read with
      | mk line console => cases line <;> rfl
    | [] | _ :: _ :: _ => rfl
  | _ => exact hcompute

end Native

end

/-! The slots in the code of functions, changed in all values and names. -/

section

variable (f : Slot → Slot)

def Closure.mapSlots (c : Closure) : Closure :=
  { c with code := c.code.mapSlots f }

mutual

def Value.mapSlots : Value → Value
  | .function c => .function (c.mapSlots f)
  | .record c vs => .record c (valuesMapSlots vs)
  | .partialCall id callee args => .partialCall id callee.mapSlots (valuesMapSlots args)
  | .number x => .number x
  | .text s => .text s
  | .constant c => .constant c
  | .constructor c => .constructor c
  | .native g => .native g

def valuesMapSlots : List Value → List Value
  | [] => []
  | v :: vs => v.mapSlots :: valuesMapSlots vs

end

/-- The entries of a table of values. -/
def entriesMapSlots (t : List (String × Value)) : List (String × Value) :=
  t.map fun e => (e.1, e.2.mapSlots f)

mutual

def Namespace.mapSlots : Namespace → Namespace
  | .mk isPublic values types children =>
    .mk isPublic (entriesMapSlots f values) types (childrenMapSlots children)

def childrenMapSlots : List (String × Namespace) → List (String × Namespace)
  | [] => []
  | (name, ns) :: rest => (name, ns.mapSlots) :: childrenMapSlots rest

end

theorem valuesMapSlots_eq (vs : List Value) : valuesMapSlots f vs = vs.map (·.mapSlots f) := by
  induction vs with
  | nil => rfl
  | cons v vs ih => rw [valuesMapSlots, List.map_cons, ih]

theorem childrenMapSlots_eq (cs : List (String × Namespace)) :
    childrenMapSlots f cs = cs.map fun e => (e.1, e.2.mapSlots f) := by
  induction cs with
  | nil => rfl
  | cons e cs ih => rw [childrenMapSlots, List.map_cons, ih]

end

section

variable {f : Slot → Slot}

mutual

/-- To change slots is to change the code. -/
theorem Value.mapSlots_eq (v : Value) : v.mapSlots f = v.recode (Code.mapSlots f) id := by
  match v with
  | .record c vs => rw [Value.mapSlots, Value.recode, valuesMapSlots_eq_recode vs]
  | .partialCall id callee args =>
    rw [Value.mapSlots, Value.recode, Value.mapSlots_eq callee, valuesMapSlots_eq_recode args]
  | .number _ | .text _ | .constant _ | .function _ | .constructor _ | .native _ => rfl

theorem valuesMapSlots_eq_recode (vs : List Value) :
    valuesMapSlots f vs = valuesRecode (Code.mapSlots f) id vs := by
  match vs with
  | [] => rfl
  | v :: vs => rw [valuesMapSlots, valuesRecode, Value.mapSlots_eq v, valuesMapSlots_eq_recode vs]

end

@[simp] theorem Closure.text_mapSlots (c : Closure) : (c.mapSlots f).text = c.text := rfl

@[simp] theorem Value.arity?_mapSlots (v : Value) : (v.mapSlots f).arity? = v.arity? := by
  rw [mapSlots_eq, arity?_recode]

@[simp] theorem Value.display_mapSlots (v : Value) : (v.mapSlots f).display = v.display := by
  rw [mapSlots_eq, display_recode]

theorem Shape.accepts_mapSlots (find : List String → Except Fault DataType) (s : Shape) (v : Value) :
    s.accepts find (v.mapSlots f) = s.accepts find v := by
  rw [Value.mapSlots_eq, accepts_recode]

theorem decompose_mapSlots (t : DataType) (parts : Nat) (vs : List Value) :
    decompose t parts (vs.map (·.mapSlots f)) =
      (decompose t parts vs).map (List.map (·.mapSlots f)) := by
  simp only [Value.mapSlots_eq]
  exact decompose_recode t parts vs

theorem takeOperands_mapSlots (n : Nat) (vs : List Value) :
    takeOperands n (vs.map (·.mapSlots f)) =
      (takeOperands n vs).map fun r => (r.1.map (·.mapSlots f), r.2.map (·.mapSlots f)) := by
  simp only [Value.mapSlots_eq]
  exact takeOperands_recode n vs

theorem Native.run_mapSlots (g : Native) (vs : List Value) (console : Console) :
    g.run (vs.map (·.mapSlots f)) console =
      (g.run vs console).map fun r => (r.1.mapSlots f, r.2) := by
  simp only [Value.mapSlots_eq]
  exact run_recode g vs console

end

end MatchLang
