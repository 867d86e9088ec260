import Mathlib

set_option autoImplicit false

/-! # Integer arithmetic of expressions

`expr_eval` on trees of `+`, `-`, `*`, `/` and unary minus whose leaves are integers, file sizes or
dates, all of which carry an `int64_t`, and the aggregate `sum`. The source computes with plain
`int64_t` operators and checks nothing but a zero divisor, so a result that does not fit is a signed
overflow: the machine wraps, or traps where the smallest number is divided by -1. The arithmetic is
exact precisely where no step leaves the range (`exprEval_cases`, `aggRun_cases`). -/


namespace EmbLinkOs.Shell

/-- The tags of the values that carry an integer. -/
inductive Tag
  | int
  | filesize
  | date
  deriving DecidableEq

/-- `type_name`. -/
def Tag.typeName : Tag → String
  | int => "int"
  | filesize => "filesize"
  | date => "date"

structure Num where
  tag : Tag
  i : Int64
  deriving DecidableEq

inductive ArithOp
  | plus
  | minus
  | star
  | slash
  deriving DecidableEq

/-- The operation on the integers; division truncates. -/
def ArithOp.apply : ArithOp → Int → Int → Int
  | plus, x, y => x + y
  | minus, x, y => x - y
  | star, x, y => x * y
  | slash, x, y => x.tdiv y

/-- `struct expr`, where a leaf is what it evaluates to. -/
inductive Expr
  | leaf (v : Num)
  | neg (operand : Expr)
  | binary (op : ArithOp) (lhs rhs : Expr)

/-- What an evaluation comes to. `overflow` is a signed overflow on the way, after which the source
    means nothing. -/
inductive Outcome
  | value (v : Num)
  | error (msg : String)
  | overflow
  deriving DecidableEq

def Fits (r : Int) : Prop := -2 ^ 63 ≤ r ∧ r < 2 ^ 63

instance (r : Int) : Decidable (Fits r) := inferInstanceAs (Decidable (_ ∧ _))

/-- An `int64_t` operation with the mathematical result `r`. -/
def Outcome.ofInt (t : Tag) (r : Int) : Outcome :=
  if Fits r then .value ⟨t, Int64.ofInt r⟩ else .overflow

/-- `arith_result_type`. -/
def arithResultType (a b : Tag) : Option Tag :=
  if a = b then some a else if a = .int then some b else if b = .int then some a else none

/-- `eval_binary` on two numbers. -/
def evalBinary (op : ArithOp) (l r : Num) : Outcome :=
  match arithResultType l.tag r.tag with
  | none => .error ("can't mix " ++ l.tag.typeName ++ " and " ++ r.tag.typeName ++ " in arithmetic")
  | some rt =>
    if op = .slash ∧ r.i.toInt = 0 then .error "division by zero"
    else .ofInt rt (op.apply l.i.toInt r.i.toInt)

/-- `expr_eval`; both sides of a binary operator are evaluated, and an error of the left one is the
    result before one of the right. -/
def exprEval : Expr → Outcome
  | .leaf v => .value v
  | .neg e =>
    match exprEval e with
    | .value v => .ofInt v.tag (-v.i.toInt)
    | o => o
  | .binary op l r =>
    match exprEval l, exprEval r with
    | .overflow, _ | _, .overflow => .overflow
    | .error m, _ => .error m
    | .value _, .error m => .error m
    | .value a, .value b => evalBinary op a b

/-! ## The mathematical value of a tree -/

/-- The exact result of a tree with its tag; a tree that mixes file sizes and dates or divides by
    zero has none. -/
def Expr.exact : Expr → Option (Tag × Int)
  | .leaf v => some (v.tag, v.i.toInt)
  | .neg e => e.exact.map fun x => (x.1, -x.2)
  | .binary op l r => do
    let x ← l.exact
    let y ← r.exact
    let t ← arithResultType x.1 y.1
    if op = .slash ∧ y.2 = 0 then none else some (t, op.apply x.2 y.2)

/-- Every operation of the tree that has a result has one that fits. -/
def Expr.InRange : Expr → Prop
  | .leaf _ => True
  | .neg e => e.InRange ∧ ∀ x ∈ (Expr.neg e).exact, Fits x.2
  | .binary op l r => l.InRange ∧ r.InRange ∧ ∀ x ∈ (Expr.binary op l r).exact, Fits x.2

/-- The outcome is the number `x`, or an error where there is none. -/
def Outcome.Agrees : Outcome → Option (Tag × Int) → Prop
  | .value v, x => x = some (v.tag, v.i.toInt)
  | .error _, x => x = none
  | .overflow, _ => False

theorem Outcome.ofInt_cases (t : Tag) (r : Int) :
    ((ofInt t r).Agrees (some (t, r)) ∧ Fits r) ∨ (ofInt t r = .overflow ∧ ¬ Fits r) := by
  by_cases h : Fits r
  · exact .inl ⟨by simp [ofInt, h, Agrees, Int64.toInt_ofInt_of_le h.1 h.2], h⟩
  · exact .inr ⟨by simp [ofInt, h], h⟩

theorem evalBinary_cases (op : ArithOp) (a b : Num) :
    ((evalBinary op a b).Agrees (Expr.binary op (.leaf a) (.leaf b)).exact ∧
        ∀ x ∈ (Expr.binary op (.leaf a) (.leaf b)).exact, Fits x.2) ∨
      (evalBinary op a b = .overflow ∧
        ¬ ∀ x ∈ (Expr.binary op (.leaf a) (.leaf b)).exact, Fits x.2) := by
  simp only [evalBinary, Expr.exact, Option.bind_eq_bind, Option.bind_some]
  rcases arithResultType a.tag b.tag with _ | t
  · exact .inl ⟨rfl, by simp⟩
  simp only [Option.bind_some]
  split_ifs with h
  · exact .inl ⟨rfl, by simp⟩
  · simpa using Outcome.ofInt_cases t (op.apply a.i.toInt b.i.toInt)

/-- Every evaluation is exact with all operations in range, or meets an overflow. -/
theorem exprEval_cases (e : Expr) :
    ((exprEval e).Agrees e.exact ∧ e.InRange) ∨ (exprEval e = .overflow ∧ ¬ e.InRange) := by
  induction e with
  | leaf v => exact .inl ⟨rfl, trivial⟩
  | neg e ih =>
    rcases ih with ⟨ha, hr⟩ | ⟨ho, hn⟩
    · simp only [exprEval, Expr.InRange, Expr.exact, hr, true_and]
      generalize exprEval e = o at ha
      cases o with
      | value v =>
        rw [show e.exact = some (v.tag, v.i.toInt) from ha]
        simpa using Outcome.ofInt_cases v.tag (-v.i.toInt)
      | error m =>
        rw [show e.exact = none from ha]
        exact .inl ⟨rfl, by simp⟩
      | overflow => exact ha.elim
    · exact .inr ⟨by simp only [exprEval, ho], fun h => hn h.1⟩
  | binary op l r ihl ihr =>
    rcases ihl with ⟨hl, hlr⟩ | ⟨ho, hn⟩
    · rcases ihr with ⟨hr, hrr⟩ | ⟨ho, hn⟩
      · simp only [exprEval, Expr.InRange, hlr, hrr, true_and]
        generalize exprEval l = o at hl
        generalize exprEval r = o' at hr
        cases o with
        | value a =>
          have hla : l.exact = (Expr.leaf a).exact := hl
          cases o' with
          | value b =>
            have hrb : r.exact = (Expr.leaf b).exact := hr
            simpa only [Expr.exact, hla, hrb] using evalBinary_cases op a b
          | error m =>
            have hnone : (Expr.binary op l r).exact = none := by
              simp [Expr.exact, show r.exact = none from hr]
            simp [hnone, Outcome.Agrees]
          | overflow => exact hr.elim
        | error m =>
          have hnone : (Expr.binary op l r).exact = none := by
            simp [Expr.exact, show l.exact = none from hl]
          cases o' with
          | overflow => exact hr.elim
          | value | error => simp [hnone, Outcome.Agrees]
        | overflow => exact hl.elim
      · refine .inr ⟨?_, fun h => hn h.2.1⟩
        simp only [exprEval, ho]
        cases exprEval l <;> rfl
    · exact .inr ⟨by simp only [exprEval, ho], fun h => hn h.1⟩

/-! ## `sum` -/

/-- The loop of `agg_run` for `sum`, once there is an accumulator. -/
def aggRunFrom : Bool → Int64 → List Num → Outcome
  | filesize, iacc, [] => .value ⟨if filesize then .filesize else .int, iacc⟩
  | filesize, iacc, v :: vs =>
    match Outcome.ofInt .int (iacc.toInt + v.i.toInt) with
    | .value s => aggRunFrom (filesize || v.tag = .filesize) s.i vs
    | o => o

/-- `agg_run` for `sum` over a list of integers; there is nothing, a null, to show for none. -/
def aggRun : List Num → Option Outcome
  | [] => none
  | v :: vs => some (aggRunFrom (v.tag = .filesize) v.i vs)

/-- The exact sum: a file size if one of the summands is. -/
def exactSum (vs : List Num) : Tag × Int :=
  (if vs.any (·.tag = .filesize) then .filesize else .int, (vs.map (·.i.toInt)).sum)

/-- The running sums fit. -/
def SumsInRange (vs : List Num) : Prop := ∀ k, Fits ((vs.take k).map (·.i.toInt)).sum

theorem fits_toInt (i : Int64) : Fits i.toInt := ⟨i.le_toInt, i.toInt_lt⟩

theorem aggRunFrom_cases (vs : List Num) (filesize : Bool) (iacc : Int64) :
    ((aggRunFrom filesize iacc vs).Agrees
          (some (if filesize || vs.any (·.tag = .filesize) then .filesize else .int,
            iacc.toInt + (vs.map (·.i.toInt)).sum)) ∧
        ∀ k, Fits (iacc.toInt + ((vs.take k).map (·.i.toInt)).sum)) ∨
      (aggRunFrom filesize iacc vs = .overflow ∧
        ∃ k, ¬ Fits (iacc.toInt + ((vs.take k).map (·.i.toInt)).sum)) := by
  induction vs generalizing filesize iacc with
  | nil => exact .inl ⟨by simp [aggRunFrom, Outcome.Agrees], by simp [fits_toInt]⟩
  | cons v vs ih =>
    rw [aggRunFrom, Outcome.ofInt]
    by_cases h : Fits (iacc.toInt + v.i.toInt)
    · have hs := ih (filesize || v.tag = .filesize) (Int64.ofInt (iacc.toInt + v.i.toInt))
      rw [Int64.toInt_ofInt_of_le h.1 h.2] at hs
      rw [if_pos h]
      rcases hs with ⟨ha, hk⟩ | ⟨ho, k, hk⟩
      · refine .inl ⟨by simpa [Bool.or_assoc, add_assoc] using ha, ?_⟩
        intro k
        cases k with
        | zero => simpa using fits_toInt iacc
        | succ k => simpa [add_assoc] using hk k
      · exact .inr ⟨ho, k + 1, by simpa [add_assoc] using hk⟩
    · rw [if_neg h]
      exact .inr ⟨rfl, 1, by simpa using h⟩

theorem aggRun_cases (vs : List Num) :
    ((∀ o ∈ aggRun vs, o.Agrees (some (exactSum vs))) ∧ SumsInRange vs) ∨
      (aggRun vs = some .overflow ∧ ¬ SumsInRange vs) := by
  cases vs with
  | nil => exact .inl ⟨by simp [aggRun], by simp [SumsInRange, Fits]⟩
  | cons v vs =>
    rcases aggRunFrom_cases vs (v.tag = .filesize) v.i with ⟨ha, hk⟩ | ⟨ho, k, hk⟩
    · refine .inl ⟨by simpa [aggRun, exactSum] using ha, ?_⟩
      intro k
      cases k with
      | zero => simp [Fits]
      | succ k => simpa using hk k
    · refine .inr ⟨by rw [aggRun, ho], ?_⟩
      exact fun h => hk (by simpa using h (k + 1))

/-- Where every operation of a tree that has a result has one that fits, the expression evaluates to
    its exact value, or to an error if it has none; elsewhere it meets an overflow. The same holds of
    the sum of a list and its running sums. -/
theorem arith_exact_or_overflow (e : Expr) (vs : List Num) :
    ((e.InRange → (exprEval e).Agrees e.exact) ∧ (¬ e.InRange → exprEval e = .overflow)) ∧
    (SumsInRange vs → ∀ o ∈ aggRun vs, o.Agrees (some (exactSum vs))) ∧
      (¬ SumsInRange vs → aggRun vs = some .overflow) := by
  constructor
  · rcases exprEval_cases e with ⟨ha, hr⟩ | ⟨ho, hr⟩
    · exact ⟨fun _ => ha, fun h => absurd hr h⟩
    · exact ⟨fun h => absurd h hr, fun _ => ho⟩
  · rcases aggRun_cases vs with ⟨ha, hr⟩ | ⟨ho, hr⟩
    · exact ⟨fun _ => ha, fun h => absurd hr h⟩
    · exact ⟨fun h => absurd h hr, fun _ => ho⟩

/-- `9223372036854775807 + 1`, the smallest number negated or divided by -1, and a sum of two. -/
theorem arith_overflows :
    exprEval (.binary .plus (.leaf ⟨.int, Int64.maxValue⟩) (.leaf ⟨.int, 1⟩)) = .overflow ∧
      exprEval (.neg (.leaf ⟨.int, Int64.minValue⟩)) = .overflow ∧
      exprEval (.binary .slash (.leaf ⟨.int, Int64.minValue⟩) (.leaf ⟨.int, -1⟩)) = .overflow ∧
      aggRun [⟨.int, Int64.maxValue⟩, ⟨.int, 1⟩] = some .overflow := by
  decide

end EmbLinkOs.Shell
