import Mathlib

/-!
# UTF-8 with replacement

Octets are read one at a time, and what cannot go on as a character becomes a replacement character. Where
the octets of a second part begin a character, the two parts decode one after the other.
-/

set_option autoImplicit false

namespace QCFuse.Library.Utf8

/-- A character that has begun: how many octets it takes after the next one, what the next one may be, and
its value so far. -/
structure Begun where
  more : Nat
  low : Nat
  high : Nat
  value : Nat
  continues : 0x80 ≤ low ∧ high ≤ 0xBF

def replacement : Char := Char.ofNat 0xFFFD

/-- An octet between characters: what it decodes to, and the character it begins. -/
def first (b : UInt8) : List Char × Option Begun :=
  let n := b.toNat
  if n < 0x80 then ([Char.ofNat n], none)
  else if 0xC2 ≤ n ∧ n ≤ 0xDF then ([], some ⟨0, 0x80, 0xBF, n - 0xC0, by decide⟩)
  else if n = 0xE0 then ([], some ⟨1, 0xA0, 0xBF, 0, by decide⟩)
  else if n = 0xED then ([], some ⟨1, 0x80, 0x9F, 0xD, by decide⟩)
  else if 0xE1 ≤ n ∧ n ≤ 0xEF then ([], some ⟨1, 0x80, 0xBF, n - 0xE0, by decide⟩)
  else if n = 0xF0 then ([], some ⟨2, 0x90, 0xBF, 0, by decide⟩)
  else if 0xF1 ≤ n ∧ n ≤ 0xF3 then ([], some ⟨2, 0x80, 0xBF, n - 0xF0, by decide⟩)
  else if n = 0xF4 then ([], some ⟨2, 0x80, 0x8F, 4, by decide⟩)
  else ([replacement], none)

/-- An octet behind a character that has begun. -/
def next (c : Begun) (b : UInt8) : List Char × Option Begun :=
  if c.low ≤ b.toNat ∧ b.toNat ≤ c.high then
    let value := c.value * 64 + (b.toNat - 0x80)
    match c.more with
    | 0 => ([Char.ofNat value], none)
    | more + 1 => ([], some ⟨more, 0x80, 0xBF, value, by decide⟩)
  else (replacement :: (first b).1, (first b).2)

def step : Option Begun → UInt8 → List Char × Option Begun
  | none, b => first b
  | some c, b => next c b

def decodeFrom : Option Begun → List UInt8 → List Char
  | none, [] => []
  | some _, [] => [replacement]
  | state, b :: bs => (step state b).1 ++ decodeFrom (step state b).2 bs

def decode (bs : List UInt8) : List Char := decodeFrom none bs

/-- The octets begin with no octet that only continues a character. -/
def StartsCharacter (bs : List UInt8) : Prop := ∀ b ∈ bs.head?, b.toNat < 0x80 ∨ 0xBF < b.toNat

theorem StartsCharacter.append {x y : List UInt8} (hx : StartsCharacter x) (hne : x ≠ []) :
    StartsCharacter (x ++ y) := by
  cases x with
  | nil => exact absurd rfl hne
  | cons b x => exact hx

theorem decodeFrom_append (state : Option Begun) (x : List UInt8) {y : List UInt8} (h : StartsCharacter y) :
    decodeFrom state (x ++ y) = decodeFrom state x ++ decodeFrom none y := by
  induction x generalizing state with
  | nil =>
    cases state with
    | none => rfl
    | some c =>
      cases y with
      | nil => rfl
      | cons b y =>
        have hout : ¬ (c.low ≤ b.toNat ∧ b.toNat ≤ c.high) := by
          have hb := h b rfl
          have hc := c.continues
          omega
        have hnext : next c b = (replacement :: (first b).1, (first b).2) := if_neg hout
        change (next c b).1 ++ decodeFrom (next c b).2 y = _
        rw [hnext]
        rfl
  | cons b x ih => rw [List.cons_append, decodeFrom, decodeFrom, ih, List.append_assoc]

theorem decode_append (x : List UInt8) {y : List UInt8} (h : StartsCharacter y) :
    decode (x ++ y) = decode x ++ decode y :=
  decodeFrom_append none x h

theorem decodeFrom_ne_nil (c : Begun) (bs : List UInt8) : decodeFrom (some c) bs ≠ [] := by
  induction bs generalizing c with
  | nil => exact List.cons_ne_nil _ _
  | cons b bs ih =>
    rw [decodeFrom, step, next]
    split
    next =>
      cases c.more with
      | zero => exact List.cons_ne_nil _ _
      | succ more => exact ih _
    next => exact List.cons_ne_nil _ _

theorem decode_ne_nil {bs : List UInt8} (h : bs ≠ []) : decode bs ≠ [] := by
  cases bs with
  | nil => exact absurd rfl h
  | cons b bs =>
    simp only [decode, decodeFrom, step, first]
    split_ifs <;> first | exact List.cons_ne_nil _ _ | exact decodeFrom_ne_nil _ _

/-! ## Complete parts -/

/-- The character that is begun after the octets. -/
def after : Option Begun → List UInt8 → Option Begun
  | state, [] => state
  | state, b :: bs => after (step state b).2 bs

/-- What the octets decode to, without a replacement for a last character that is only begun. -/
def emitted : Option Begun → List UInt8 → List Char
  | _, [] => []
  | state, b :: bs => (step state b).1 ++ emitted (step state b).2 bs

theorem after_append (state : Option Begun) (x y : List UInt8) : after state (x ++ y) = after (after state x) y := by
  induction x generalizing state with
  | nil => rfl
  | cons b x ih => exact ih _

theorem emitted_append (state : Option Begun) (x y : List UInt8) :
    emitted state (x ++ y) = emitted state x ++ emitted (after state x) y := by
  induction x generalizing state with
  | nil => rfl
  | cons b x ih => rw [List.cons_append, emitted, emitted, ih, List.append_assoc, after]

/-- The replacement for a character that is only begun. -/
def tail (state : Option Begun) : List Char := if state.isSome then [replacement] else []

theorem decodeFrom_eq (state : Option Begun) (bs : List UInt8) :
    decodeFrom state bs = emitted state bs ++ tail (after state bs) := by
  induction bs generalizing state with
  | nil => cases state <;> rfl
  | cons b bs ih => rw [decodeFrom, emitted, after, ih, List.append_assoc]

theorem emitted_prefix_decode (bs : List UInt8) : emitted none bs <+: decode bs :=
  ⟨_, (decodeFrom_eq none bs).symm⟩

theorem emitted_mono {x y : List UInt8} (h : x <+: y) : emitted none x <+: emitted none y := by
  obtain ⟨z, rfl⟩ := h
  exact ⟨_, (emitted_append none x z).symm⟩

theorem decode_of_complete {bs : List UInt8} (h : after none bs = none) : decode bs = emitted none bs := by
  rw [decode, decodeFrom_eq, h]
  exact List.append_nil _

/-- What follows a complete part decodes by itself. -/
theorem decode_append_complete {x : List UInt8} (h : after none x = none) (y : List UInt8) :
    decode (x ++ y) = decode x ++ decode y := by
  rw [decode_of_complete h, decode, decode, decodeFrom_eq, decodeFrom_eq, emitted_append, after_append, h,
    List.append_assoc]

/-- A text that does not end with a replacement character is complete. -/
theorem complete_of_getLast {bs : List UInt8} (h : (decode bs).getLast? ≠ some replacement) :
    after none bs = none := by
  rw [decode, decodeFrom_eq] at h
  cases hafter : after none bs with
  | none => rfl
  | some c =>
    rw [hafter] at h
    exact absurd (List.getLast?_concat ..) h

theorem after_of_append_complete {x y : List UInt8} (hx : after none x = none) (h : after none (x ++ y) = none) :
    after none y = none := by
  rwa [after_append, hx] at h

/-- The first octet of `y` goes on with a character that `x` begins. -/
def Continues (x y : List UInt8) : Prop :=
  ∃ c ∈ after none x, ∃ b ∈ y.head?, c.low ≤ b.toNat ∧ b.toNat ≤ c.high

theorem Continues.append_right {x y z : List UInt8} (h : Continues x y) : Continues x (y ++ z) := by
  obtain ⟨c, hc, b, hb, hrange⟩ := h
  cases y with
  | nil => cases hb
  | cons b' y => exact ⟨c, hc, b, hb, hrange⟩

/-- A part that no character goes on into decodes by itself. -/
theorem decode_append_of_not_continues {x y : List UInt8} (h : ¬ Continues x y) :
    decode (x ++ y) = decode x ++ decode y := by
  cases hx : after none x with
  | none => exact decode_append_complete hx y
  | some c =>
    cases y with
    | nil => rw [List.append_nil]; exact (List.append_nil _).symm
    | cons b y =>
      have hout : ¬ (c.low ≤ b.toNat ∧ b.toNat ≤ c.high) := fun hrange => h ⟨c, hx, b, rfl, hrange⟩
      have hnext : step (some c) b = (replacement :: (first b).1, (first b).2) := if_neg hout
      have hself : decode (b :: y) = (first b).1 ++ decodeFrom (first b).2 y := rfl
      rw [decode, decode, decodeFrom_eq none x, decodeFrom_eq none (x ++ b :: y), emitted_append, after_append, hx,
        hself, List.append_assoc, ← decodeFrom_eq (some c) (b :: y), decodeFrom, hnext, List.append_assoc]
      rfl

end QCFuse.Library.Utf8
