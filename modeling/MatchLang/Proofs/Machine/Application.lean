import Mathlib.Data.List.Basic
import MatchLang.Machine.Call
import MatchLang.Proofs.Machine.Walk
import MatchLang.Proofs.Store.Sound

/-! What a call with well-formed operands comes to: it takes the callee and the arguments and nothing
below them, and no fault comes up that well-formed code should never meet. -/

namespace MatchLang

/-- Faults of the machine itself, which the operands of a program are not to blame for. -/
def Fault.Internal : Fault → Prop
  | .stackUnderflow => True
  | .unattachedLabel _ => True
  | .namespaceNotFound _ => True
  | _ => False

namespace Native

variable {f : Native} {args : List Value} {console console' : Console} {v : Value}
  {fault : Fault}

/-- A native function with the arguments it wants answers with a value that needs no case beyond the
built-in ones, or with a fault of the program. -/
def Answers : Except Fault Value → Prop
  | .ok v => ∀ κ : Registry, (∀ c, builtinRegistry.Has c → κ.Has c) → v.Ok κ
  | .error fault => ¬ fault.Internal

theorem boolValue_ok (p : Bool) : Answers (.ok (builtins.boolValue p)) := by
  intro κ hκ
  cases p
  · exact ⟨hκ builtins.no rfl, rfl⟩
  · exact ⟨hκ builtins.yes rfl, rfl⟩

theorem twoNumbers_answers {op : Float → Float → Float} (v w : Value) :
    Answers (f.twoNumbers op [v, w]) := by
  cases v with
  | number x =>
    cases w with
    | number y => exact fun _ _ => trivial
    | _ => exact id
  | _ => exact id

theorem joinTexts_answers (v w : Value) : Answers (f.joinTexts [v, w]) := by
  cases v with
  | text x =>
    cases w with
    | text y => exact fun _ _ => trivial
    | _ => exact id
  | _ => exact id

theorem compareOrder_answers {keep : Ordering → Bool} (v w : Value) :
    Answers (f.compareOrder keep [v, w]) := by
  cases v with
  | number x =>
    cases w with
    | number y =>
      rw [compareOrder]
      cases numberOrder? x y with
      | some o => exact boolValue_ok _
      | none => exact id
    | _ => exact id
  | text s =>
    cases w with
    | text t => exact boolValue_ok _
    | _ => exact id
  | _ => exact id

theorem readNumber_answers (v : Value) : Answers (f.readNumber [v]) := by
  cases v with
  | number x => exact fun _ _ => trivial
  | text s =>
    rw [readNumber]
    cases readNumber? (trimBlanks s.toList) with
    | some x => exact fun _ _ => trivial
    | none => exact id
  | _ => exact id

/-- All functions but printing and reading leave the console alone. -/
theorem run_eq_compute (hp : f ≠ .printLine) (hr : f ≠ .readLine) :
    (f.run args console).map (·.1) = f.compute args := by
  have hm : f.run args console = (f.compute args).map (·, console) := by
    cases f with
    | printLine => exact absurd rfl hp
    | readLine => exact absurd rfl hr
    | _ => rfl
  rw [hm]
  cases f.compute args <;> rfl

theorem run_answers (ha : args.length = f.arity) :
    Answers ((f.run args console).map (·.1)) := by
  by_cases h₁ : f.arity = 1
  · obtain ⟨v, rfl⟩ := List.length_eq_one_iff.mp (ha.trans h₁)
    cases f with
    | printLine => exact fun κ hκ => ⟨hκ builtins.unit rfl, rfl⟩
    | readLine =>
      rw [run]
      rcases (console.print v.display).read with ⟨_ | s, c⟩
      · exact fun κ hκ => ⟨hκ builtins.unit rfl, rfl⟩
      · exact fun _ _ => trivial
    | toNumber =>
      have h : (Native.toNumber.run [v] console).map (·.1) = Native.toNumber.compute [v] :=
        run_eq_compute nofun nofun
      rw [h]
      exact readNumber_answers v
    | toText => exact fun _ _ => trivial
    | raise => exact id
    | _ => cases h₁
  · have h₂ : f.arity = 2 := by
      cases f <;> simp [arity] at h₁ ⊢
    obtain ⟨v, w, rfl⟩ := List.length_eq_two.mp (ha.trans h₂)
    rw [run_eq_compute (by rintro rfl; cases h₂) (by rintro rfl; cases h₂)]
    cases f with
    | add | subtract | multiply | divide | remainder => exact twoNumbers_answers v w
    | concat => exact joinTexts_answers v w
    | equal | different => exact boolValue_ok _
    | less | lessEqual | greater | greaterEqual => exact compareOrder_answers v w
    | _ => cases h₂

theorem run_ok (ha : args.length = f.arity) (h : f.run args console = .ok (v, console'))
    {κ : Registry} (hκ : ∀ c, builtinRegistry.Has c → κ.Has c) : v.Ok κ := by
  have hr : Answers ((f.run args console).map (·.1)) := run_answers ha
  rw [h] at hr
  exact hr κ hκ

theorem run_fault (ha : args.length = f.arity) (h : f.run args console = .error fault) :
    ¬ fault.Internal := by
  have hr : Answers ((f.run args console).map (·.1)) := run_answers ha
  rw [h] at hr
  exact hr

end Native

theorem takeOperands_of_length {n : Nat} {args rest : List Value} (h : args.length = n) :
    takeOperands n (args ++ rest) = some (args, rest) :=
  h ▸ takeOperands_append args rest

/-- A callee with all its arguments: a function begins with as many operands as it wants, a
constructor has its fields, and a native function its arguments. -/
inductive Applied (κ : Registry) (rest : List Value) : Application → Prop where
  | enter (c : Closure) (args : List Value) : c.Balanced → args.length = c.arity →
    SoundAll κ Closure.Balanced args → Applied κ rest (.enter c (args ++ rest))
  | build (c : Case) (fields : List Value) : (Value.record c fields).Ok κ →
    Applied κ rest (.build c fields rest)
  | compute (f : Native) (args : List Value) : args.length = f.arity →
    Applied κ rest (.compute f args rest)

theorem applyFull_applied {κ : Registry} {rest : List Value} : {callee : Value} →
    {args : List Value} → callee.Ok κ → callee.arity? = some args.length →
    SoundAll κ Closure.Balanced args → Applied κ rest (applyFull callee (args ++ rest))
  | .function c, args, hc, ha, hs => by
    rw [Value.arity?, Option.some.injEq] at ha
    exact .enter c args hc ha.symm hs
  | .constructor c, args, hc, ha, hs => by
    rw [Value.arity?, Option.some.injEq] at ha
    rw [applyFull, takeOperands_of_length ha.symm]
    exact .build c args ⟨hc.1, hc.2, ha.symm, hs⟩
  | .native f, args, _, ha, _ => by
    rw [Value.arity?, Option.some.injEq] at ha
    rw [applyFull, takeOperands_of_length ha.symm]
    exact .compute f args ha.symm
  | .partialCall _ callee held, args, ⟨hc, hh, n, hn, hlt⟩, ha, hs => by
    rw [Value.arity?, hn, Option.map_some, Option.some.injEq] at ha
    rw [applyFull, ← List.append_assoc]
    refine applyFull_applied hc ?_ (soundAll_append.mpr ⟨hh, hs⟩)
    rw [hn, List.length_append]
    exact congrArg some (by omega)

/-- What a call comes to that a machine `m` makes with the store `σ` and goes on from at `k`: an answer
in place of the callee and the arguments, a function with as many operands as it wants, or a fault of the
program. -/
inductive Called (κ : Registry) (m : Machine) (σ : Store) (rest : List Value) (line : Nat)
    (k : List Instr) : Transition → Prop where
  | answers {τ : Store} {v : Value} : τ.Sound κ → τ.scopes = σ.scopes → τ.roots = σ.roots → v.Ok κ →
    Called κ m σ rest line k (.running (m.resume τ (v :: rest) line k))
  | enters {c : Closure} {args : List Value} : c.Balanced → args.length = c.arity →
    SoundAll κ Closure.Balanced args →
    Called κ m σ rest line k (.running ((m.resume σ (args ++ rest) line k).pushFrame c))
  | raises {os : List Value} {f : Fault} : ¬ f.Internal →
    Called κ m σ rest line k (.raised (m.resume σ os line k) f)

section

variable {κ : Registry} {host : Host} {m : Machine} {σ : Store} {args rest os : List Value}
  {line : Nat} {k : List Instr} {callee : Value}

theorem apply_called (hσ : σ.Sound κ) (hc : callee.Ok κ) (hn : callee.arity? = some args.length)
    (ha : SoundAll κ Closure.Balanced args) :
    Called κ m σ rest line k ((m.resume σ os line k).apply host callee (args ++ rest)) := by
  have happ : Applied κ rest (applyFull callee (args ++ rest)) := applyFull_applied hc hn ha
  unfold Machine.apply
  generalize applyFull callee (args ++ rest) = a at happ
  cases happ with
  | @enter c cargs hc hl hs =>
    have he : Called κ m σ rest line k
        (.running ((m.resume σ (cargs ++ rest) line k).pushFrame c)) := .enters hc hl hs
    simp only [Machine.enter]
    split
    · split
      · exact .raises id
      · exact he
    · exact he
  | build c fields hf => exact .answers hσ rfl rfl hf
  | compute f fargs hl =>
    simp only [Machine.resume_store]
    cases hr : f.run fargs σ.console with
    | error fault => exact .raises (Native.run_fault hl hr)
    | ok r =>
      have hτ : Store.Sound κ { σ with console := r.2 } := hσ.congr rfl rfl (Nat.le_refl _)
      exact .answers hτ rfl rfl (Native.run_ok hl hr hσ.builtin)

/-- A call of a callee with its arguments in front of the other operands. -/
theorem call_called (hσ : σ.Sound κ) (hc : callee.Ok κ) (ha : SoundAll κ Closure.Balanced args) :
    Called κ m σ rest line k
      ((m.resume σ (callee :: (args ++ rest)) line k).perform host (.call args.length)) := by
  rw [Machine.perform, Machine.call, Machine.resume_operands]
  cases hn : callee.arity? with
  | none =>
    simp only [hn]
    exact .raises id
  | some arity =>
    simp only [hn]
    split
    · rename_i he
      exact apply_called hσ hc (he ▸ hn) ha
    · split
      · rename_i hlt
        have hh : (m.resume σ (callee :: (args ++ rest)) line k).hold callee args.length
            (args ++ rest) =
            .running (m.resume σ.newIdentity.2
              (.partialCall σ.nextIdentity callee args :: rest) line k) := by
          rw [Machine.hold, takeOperands_append]
          rfl
        rw [hh]
        have hv : (Value.partialCall σ.nextIdentity callee args).Ok κ :=
          ⟨hc, ha, arity, hn, hlt⟩
        exact .answers hσ.newIdentity rfl rfl hv
      · exact .raises id

end

end MatchLang
