import Implementors.Json.Blank
import Implementors.Decimal.Shortest

/-! Numbers. A numeral is scanned first, by the grammar alone; a reader that wants its value then
takes at most as many digits as an unsigned 64-bit word holds and scales by powers of ten. -/
namespace Implementors.Json

/-- The parts of a numeral; the digits after the point are empty iff there is no point. -/
structure Numeral where
  negative : Bool
  whole : List Char
  fraction : List Char
  exponent : Option (Bool × List Char)

/-- Where a digit should stand: `ended` is the cause at the end of the text. -/
def wantingDigit (ended : Cause) : List Char → Fault
  | [] => ended.atEnd
  | s => Cause.invalidNumber.past s

/-- One digit or more. -/
def scanDigits (ended : Cause) (s : List Char) : Except Fault (List Char × List Char) :=
  match s.takeWhile Char.isDigit with
  | [] => .error (wantingDigit ended s)
  | ds => .ok (ds, s.dropWhile Char.isDigit)

/-- The digits before the point: a zero stands alone. -/
def scanWhole (ended : Cause) : List Char → Except Fault (List Char × List Char)
  | '0' :: d :: s =>
    if d.isDigit then .error (Cause.invalidNumber.past (d :: s)) else .ok (['0'], d :: s)
  | s => scanDigits ended s

def scanFraction (ended : Cause) : List Char → Except Fault (List Char × List Char)
  | '.' :: s => scanDigits ended s
  | s => .ok ([], s)

/-- The sign of an exponent: whether it is negative. -/
def scanSign : List Char → Bool × List Char
  | '+' :: s => (false, s)
  | '-' :: s => (true, s)
  | s => (false, s)

def scanExponentDigits (ended : Cause) (s : List Char) :
    Except Fault (Option (Bool × List Char) × List Char) :=
  match scanDigits ended (scanSign s).2 with
  | .error fault => .error fault
  | .ok (ds, r) => .ok (some ((scanSign s).1, ds), r)

def scanExponent (ended : Cause) : List Char → Except Fault (Option (Bool × List Char) × List Char)
  | 'e' :: s => scanExponentDigits ended s
  | 'E' :: s => scanExponentDigits ended s
  | s => .ok (none, s)

def scanUnsigned (ended : Cause) (negative : Bool) (s : List Char) :
    Except Fault (Numeral × List Char) :=
  match scanWhole ended s with
  | .error fault => .error fault
  | .ok (whole, s) =>
    match scanFraction ended s with
    | .error fault => .error fault
    | .ok (fraction, s) =>
      match scanExponent ended s with
      | .error fault => .error fault
      | .ok (exponent, s) => .ok (⟨negative, whole, fraction, exponent⟩, s)

def scanNumeral (ended : Cause) : List Char → Except Fault (Numeral × List Char)
  | '-' :: s => scanUnsigned ended true s
  | s => scanUnsigned ended false s

theorem scanDigits_shorter {ended : Cause} {s ds r : List Char}
    (h : scanDigits ended s = .ok (ds, r)) : r.length < s.length := by
  unfold scanDigits at h
  split at h
  · simp at h
  · next hne =>
    simp only [Except.ok.injEq, Prod.mk.injEq] at h
    obtain ⟨rfl, rfl⟩ := h
    have hl := congrArg List.length (List.takeWhile_append_dropWhile (p := Char.isDigit) (l := s))
    have hp : 0 < (s.takeWhile Char.isDigit).length := List.length_pos_iff.mpr hne
    simp only [List.length_append] at hl
    omega

theorem scanWhole_shorter {ended : Cause} {s ds r : List Char}
    (h : scanWhole ended s = .ok (ds, r)) : r.length < s.length := by
  unfold scanWhole at h
  split at h
  · split at h
    · simp at h
    · simp only [Except.ok.injEq, Prod.mk.injEq] at h
      simp [← h.2]
  · exact scanDigits_shorter h

theorem scanFraction_length_le {ended : Cause} {s ds r : List Char}
    (h : scanFraction ended s = .ok (ds, r)) : r.length ≤ s.length := by
  unfold scanFraction at h
  split at h
  · have := scanDigits_shorter h
    simp only [List.length_cons]
    omega
  · simp_all

theorem scanSign_length_le (s : List Char) : (scanSign s).2.length ≤ s.length := by
  unfold scanSign
  split <;> simp

theorem scanExponent_length_le {ended : Cause} {s r : List Char} {x : Option (Bool × List Char)}
    (h : scanExponent ended s = .ok (x, r)) : r.length ≤ s.length := by
  have key : ∀ t, scanExponentDigits ended t = .ok (x, r) → r.length ≤ t.length := by
    intro t ht
    unfold scanExponentDigits at ht
    split at ht
    · simp at ht
    · next hd =>
      simp only [Except.ok.injEq, Prod.mk.injEq] at ht
      obtain ⟨-, rfl⟩ := ht
      have := scanDigits_shorter hd
      have := scanSign_length_le t
      omega
  unfold scanExponent at h
  split at h
  · exact Nat.le_succ_of_le (key _ h)
  · exact Nat.le_succ_of_le (key _ h)
  · simp_all

theorem scanNumeral_shorter {ended : Cause} {s r : List Char} {x : Numeral}
    (h : scanNumeral ended s = .ok (x, r)) : r.length < s.length := by
  have key : ∀ b t, scanUnsigned ended b t = .ok (x, r) → r.length < t.length := by
    intro b t ht
    unfold scanUnsigned at ht
    split at ht
    · simp at ht
    · next hw =>
      split at ht
      · simp at ht
      · next hf =>
        split at ht
        · simp at ht
        · next he =>
          simp only [Except.ok.injEq, Prod.mk.injEq] at ht
          obtain ⟨-, rfl⟩ := ht
          have := scanWhole_shorter hw
          have := scanFraction_length_le hf
          have := scanExponent_length_le he
          omega
  unfold scanNumeral at h
  split at h
  · exact Nat.lt_succ_of_lt (key _ _ h)
  · exact key _ _ h

/-- Takes digits as long as the value stays within a limit; gives the value and the digits left. -/
def absorb (limit : Nat) : Nat → List Char → Nat × List Char
  | n, [] => (n, [])
  | n, d :: ds =>
    let m := 10 * n + (d.toNat - '0'.toNat)
    if m ≤ limit then absorb limit m ds else (n, d :: ds)

def significandLimit : Nat := (1 <<< 64) - 1

def exponentLimit : Nat := (1 <<< 31) - 1

/-- The significand and its power of ten, the written exponent apart. Digits that no longer fit
count as places when they stand before the point and are passed over after it. -/
def Numeral.significand (x : Numeral) : Nat × Int :=
  let (n, excess) := absorb significandLimit 0 x.whole
  let (m, unread) := absorb significandLimit n x.fraction
  (m, excess.length - (x.fraction.length - unread.length : Nat))

def powerOfTen (n : Nat) : Float := Float.ofScientific 1 false n

/-- A significand times a power of ten, rounded at each step; none when it grows too large. -/
def scale (f : Float) (exponent : Int) : Option Float :=
  if exponent.natAbs ≤ 308 then
    if 0 ≤ exponent then
      let g := f * powerOfTen exponent.natAbs
      if g.isInf then none else some g
    else some (f / powerOfTen exponent.natAbs)
  else if f == 0 then some f
  else if 0 ≤ exponent then none
  else scale (f / powerOfTen 308) (exponent + 308)
termination_by exponent.natAbs
decreasing_by omega

def Numeral.signed (x : Numeral) (f : Float) : Found :=
  .decimal (Decimal.shortest (if x.negative then -f else f))

/-- The integer that a numeral without point and exponent denotes, when it is at least `-2 ^ 63`,
below `2 ^ 64` and not a negative zero. -/
def Numeral.integer? (x : Numeral) : Option Int :=
  match x.fraction, x.exponent, absorb significandLimit 0 x.whole with
  | [], none, (n, []) =>
    if x.negative then (if 0 < n ∧ n ≤ 1 <<< 63 then some (-(n : Int)) else none) else some n
  | _, _, _ => none

/-- The value of a numeral that stands before the rest. -/
def Numeral.value (x : Numeral) (rest : List Char) : Except Fault Found :=
  match x.integer? with
  | some n => .ok (.integer n)
  | none =>
    let (n, places) := x.significand
    let scaled (e : Int) : Except Fault Found :=
      match scale n.toUInt64.toFloat e with
      | some f => .ok (x.signed f)
      | none => .error (Cause.numberOutOfRange.before rest)
    match x.exponent with
    | none => scaled places
    | some (down, ds) =>
      match absorb exponentLimit 0 ds with
      | (e, []) => scaled (if down then places - e else places + e)
      | (_, _ :: unread) =>
        if n ≠ 0 ∧ !down then .error (Cause.numberOutOfRange.before (unread ++ rest))
        else .ok (x.signed 0)

end Implementors.Json
