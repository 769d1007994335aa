import Mathlib

/-!
# Python values the cache code relies on

Exceptions, the JSON values `json.load` returns, dictionary access, `isinstance(x, int)`,
`int(x)` and truthiness. A dictionary is an association list read at its first matching
key; `json.load(json.dump(x))` is `x` for the string-keyed dictionaries the writers build,
so a metadata file is its JSON value.
-/

set_option autoImplicit false

namespace QCFuse.Source

/-- Exceptions, by class; the message is the source's own text where it raises one. -/
inductive PyError where
  | valueError (message : String)
  | typeError (message : String)
  | attributeError (message : String)
  | keyError (key : String)
  | indexError
  | fileNotFound (message : String)
  | eofError (message : String)
  | runtimeError (message : String)
  deriving DecidableEq, Repr

abbrev Py := Except PyError

inductive Json where
  | null
  | bool (b : Bool)
  | int (i : Int)
  | float (q : Rat)
  | str (s : String)
  | arr (items : List Json)
  | obj (fields : List (String × Json))
  deriving Repr

namespace Json

/-- `key in d` and the stored value. -/
def lookup? (key : String) : List (String × Json) → Option Json
  | [] => none
  | (k, v) :: rest => if k = key then some v else lookup? key rest

/-- `d[key] = value`: an existing entry is overwritten in place. -/
def setItem (key : String) (value : Json) : List (String × Json) → List (String × Json)
  | [] => [(key, value)]
  | (k, v) :: rest => if k = key then (key, value) :: rest else (k, v) :: setItem key value rest

/-- `x.get(key)`; a value without that method raises. -/
def get (x : Json) (key : String) : Py Json :=
  match x with
  | .obj fields => .ok ((lookup? key fields).getD .null)
  | _ => .error (.attributeError "get")

/-- `x.get(key, default)`. -/
def getD (x : Json) (key : String) (default : Json) : Py Json :=
  match x with
  | .obj fields => .ok ((lookup? key fields).getD default)
  | _ => .error (.attributeError "get")

/-- `x[key]` with a string key. -/
def item (x : Json) (key : String) : Py Json :=
  match x with
  | .obj fields =>
    match lookup? key fields with
    | some v => .ok v
    | none => .error (.keyError key)
  | _ => .error (.typeError "indices must be integers or slices, not str")

/-- `isinstance(x, int)`; a JSON `true` is an `int` for Python. -/
def asInt? : Json → Option Int
  | .int i => some i
  | .bool b => some (if b then 1 else 0)
  | _ => none

def isDict : Json → Bool
  | .obj _ => true
  | _ => false

def asList? : Json → Option (List Json)
  | .arr items => some items
  | _ => none

/-- Decimal digits with single underscores between digits, as `int(str)` reads them. -/
def parseDigits : List Char → Nat → Bool → Option Nat
  | [], acc, afterDigit => if afterDigit then some acc else none
  | c :: rest, acc, afterDigit =>
    if c.isDigit then parseDigits rest (acc * 10 + (c.toNat - 48)) true
    else if c = '_' ∧ afterDigit = true then parseDigits rest acc false
    else none

def parseInt (s : String) : Option Int :=
  match s.trimAscii.toString.toList with
  | '-' :: rest => (parseDigits rest 0 false).map fun n => -(n : Int)
  | '+' :: rest => (parseDigits rest 0 false).map fun n => (n : Int)
  | rest => (parseDigits rest 0 false).map fun n => (n : Int)

/-- `int(x)`: a float is truncated towards zero, a string is parsed. -/
def toInt : Json → Py Int
  | .int i => .ok i
  | .bool b => .ok (if b then 1 else 0)
  | .float q => .ok (q.num.tdiv q.den)
  | .str s =>
    match parseInt s with
    | some i => .ok i
    | none => .error (.valueError "invalid literal for int() with base 10")
  | _ => .error (.typeError "int() argument must be a string or a real number")

/-- Digits with single underscores between them: their value after `acc`, how many there are after
`count`, and what follows. -/
def takeDigits : List Char → Nat → Nat → Nat × Nat × List Char
  | [], acc, count => (acc, count, [])
  | c :: rest, acc, count =>
    if c.isDigit then takeDigits rest (acc * 10 + (c.toNat - 48)) (count + 1)
    else if c = '_' ∧ 0 < count ∧ rest.head?.any Char.isDigit then takeDigits rest acc count
    else (acc, count, c :: rest)

/-- The exponent of a float, `[e[sign]digits]` up to the end. -/
def parseExponent : List Char → Option Int
  | [] => some 0
  | e :: rest =>
    if e = 'e' ∨ e = 'E' then
      let negative := rest.head? = some '-'
      let rest := if negative ∨ rest.head? = some '+' then rest.drop 1 else rest
      match takeDigits rest 0 0 with
      | (value, count, []) => if count = 0 then none else some (if negative then -value else value)
      | _ => none
    else none

/-- `float(s)` where it is a finite number. -/
def parseFloat (s : String) : Option Rat :=
  let chars := s.trimAscii.toString.toList
  let negative := chars.head? = some '-'
  let chars := if negative ∨ chars.head? = some '+' then chars.drop 1 else chars
  let (whole, wholeCount, rest) := takeDigits chars 0 0
  let (digits, fracCount, rest) :=
    match rest with
    | '.' :: rest => takeDigits rest whole 0
    | rest => (whole, 0, rest)
  if wholeCount + fracCount = 0 then none
  else
    (parseExponent rest).map fun exponent : Int =>
      (if negative then -1 else 1) * (digits : Rat) * (10 : Rat) ^ (exponent - (fracCount : Int))

/-- `float(x)` where it is a finite number; the other values raise, or are infinite or not a number. -/
def toFloat? : Json → Option Rat
  | .int i => some i
  | .bool b => some (if b then 1 else 0)
  | .float q => some q
  | .str s => parseFloat s
  | _ => none

/-- `bool(x)`. -/
def truthy : Json → Bool
  | .null => false
  | .bool b => b
  | .int i => i != 0
  | .float q => q != 0
  | .str s => s != ""
  | .arr items => !items.isEmpty
  | .obj fields => !fields.isEmpty

/-- `for x in value`: a string gives its characters, a dictionary its keys. -/
def iter : Json → Py (List Json)
  | .arr items => .ok items
  | .str s => .ok (s.toList.map fun c => .str (String.singleton c))
  | .obj fields => .ok (fields.map fun field => .str field.1)
  | _ => .error (.typeError "object is not iterable")

def ofInts (xs : List Int) : Json := .arr (xs.map .int)

def ofNats (xs : List Nat) : Json := .arr (xs.map fun n : Nat => .int n)

@[simp] theorem lookup?_setItem_self (key : String) (value : Json)
    (fields : List (String × Json)) : lookup? key (setItem key value fields) = some value := by
  induction fields with
  | nil => simp [setItem, lookup?]
  | cons head rest ih =>
    obtain ⟨k, v⟩ := head
    by_cases h : k = key <;> simp [setItem, lookup?, h, ih]

theorem lookup?_setItem_ne {key other : String} (h : other ≠ key) (value : Json)
    (fields : List (String × Json)) :
    lookup? other (setItem key value fields) = lookup? other fields := by
  induction fields with
  | nil => simp [setItem, lookup?, Ne.symm h]
  | cons head rest ih =>
    obtain ⟨k, v⟩ := head
    by_cases hk : k = key
    · subst hk; simp [setItem, lookup?, Ne.symm h]
    · simp [setItem, lookup?, hk, ih]

end Json

/-- `s.lower()` as far as a comparison with an ASCII string can see: the Kelvin sign is the one
character outside ASCII that becomes a single ASCII letter. -/
def pyLower (s : String) : String :=
  String.ofList (s.toList.map fun c => if c = '\u212a' then 'k' else c.toLower)

/-- `xs[i]` on a Python list: a negative index counts from the end. -/
def pyIndex {α : Type} (xs : List α) (i : Int) : Py α :=
  let j := if i < 0 then i + xs.length else i
  if j < 0 then .error .indexError
  else match xs[j.toNat]? with
    | some x => .ok x
    | none => .error .indexError

theorem pyIndex_ok_iff {α : Type} (xs : List α) (n : Nat) (x : α) :
    pyIndex xs n = .ok x ↔ xs[n]? = some x := by
  have hn : ¬ ((n : Int) < 0) := by omega
  simp only [pyIndex, if_neg hn, Int.toNat_natCast]
  cases h : xs[n]? <;> simp

theorem mem_of_pyIndex {α : Type} {xs : List α} {i : Int} {x : α} (h : pyIndex xs i = .ok x) :
    x ∈ xs := by
  simp only [pyIndex] at h
  generalize (if i < 0 then i + xs.length else i) = j at h
  split at h
  next => cases h
  next =>
    split at h
    next y hget =>
      cases h
      exact List.mem_of_getElem? hget
    next => cases h

/-- `xs[:stop]`; a negative bound counts from the end. -/
def pyTake {α : Type} (xs : List α) (stop : Int) : List α :=
  xs.take (if stop < 0 then stop + xs.length else stop).toNat

/-- From a successful bind, the two computations it runs. -/
theorem bind_ok {ε α β : Type} {step : Except ε α} {next : α → Except ε β} {value : β}
    (h : (step >>= next) = .ok value) : ∃ x, step = .ok x ∧ next x = .ok value := by
  cases step with
  | error e => cases h
  | ok x => exact ⟨x, rfl, h⟩

/-- A successful comprehension has one result per element. -/
theorem mapM_ok {ε α β : Type} {f : α → Except ε β} {xs : List α} {ys : List β}
    (h : xs.mapM f = .ok ys) :
    ys.length = xs.length ∧
      ∀ (i : Nat) (hx : i < xs.length) (hy : i < ys.length), f xs[i] = .ok ys[i] := by
  induction xs generalizing ys with
  | nil =>
    cases h
    exact ⟨rfl, fun i hx => absurd hx (Nat.not_lt_zero i)⟩
  | cons x xs ih =>
    rw [List.mapM_cons] at h
    obtain ⟨y, hy, h⟩ := bind_ok h
    obtain ⟨ys', hys, h⟩ := bind_ok h
    cases h
    obtain ⟨hlen, hget⟩ := ih hys
    refine ⟨by simp [hlen], fun i hx hy' => ?_⟩
    cases i with
    | zero => exact hy
    | succ i => exact hget i (by simpa using hx) (by simpa using hy')

theorem mapM_mem {ε α β : Type} {f : α → Except ε β} {xs : List α} {ys : List β} (h : xs.mapM f = .ok ys) :
    (∀ x ∈ xs, ∃ y, f x = .ok y) ∧ ∀ y ∈ ys, ∃ x ∈ xs, f x = .ok y := by
  obtain ⟨hlen, hget⟩ := mapM_ok h
  refine ⟨fun x hx => ?_, fun y hy => ?_⟩
  · obtain ⟨i, hi, rfl⟩ := List.mem_iff_getElem.mp hx
    exact ⟨_, hget i hi (hlen ▸ hi)⟩
  · obtain ⟨i, hi, rfl⟩ := List.mem_iff_getElem.mp hy
    exact ⟨_, List.getElem_mem (hlen ▸ hi), hget i (hlen ▸ hi) hi⟩

theorem mapM_exists {ε α β : Type} {f : α → Except ε β} {xs : List α}
    (h : ∀ x ∈ xs, ∃ y, f x = .ok y) : ∃ ys, xs.mapM f = .ok ys := by
  induction xs with
  | nil => exact ⟨[], rfl⟩
  | cons x xs ih =>
    obtain ⟨y, hy⟩ := h x List.mem_cons_self
    obtain ⟨ys, hys⟩ := ih fun z hz => h z (List.mem_cons_of_mem _ hz)
    exact ⟨y :: ys, by rw [List.mapM_cons, hy, hys]; rfl⟩

theorem mapM_forall₂ {ε α β : Type} {f : α → Except ε β} {rel : α → β → Prop} {xs : List α}
    (h : ∀ x ∈ xs, ∃ y, f x = .ok y ∧ rel x y) : ∃ ys, xs.mapM f = .ok ys ∧ List.Forall₂ rel xs ys := by
  induction xs with
  | nil => exact ⟨[], rfl, .nil⟩
  | cons x xs ih =>
    obtain ⟨y, hy, hrel⟩ := h x List.mem_cons_self
    obtain ⟨ys, hys, hrels⟩ := ih fun z hz => h z (List.mem_cons_of_mem x hz)
    exact ⟨y :: ys, by rw [List.mapM_cons, hy, hys]; rfl, .cons hrel hrels⟩

theorem mapM_eq_map {ε α β : Type} {f : α → Except ε β} {g : α → β} {xs : List α} (h : ∀ x ∈ xs, f x = .ok (g x)) :
    xs.mapM f = .ok (xs.map g) := by
  induction xs with
  | nil => rfl
  | cons x xs ih =>
    rw [List.mapM_cons, h x List.mem_cons_self, ih fun y hy => h y (List.mem_cons_of_mem _ hy)]
    rfl

/-- A comprehension over a guarded computation fails as soon as one guard does. -/
theorem mapM_guarded {ε α β : Type} {xs : List α} {f : α → Except ε β} {g : α → β} {e : ε} {guard : α → Prop}
    [DecidablePred guard] (h : ∀ x ∈ xs, f x = if guard x then .ok (g x) else .error e) :
    xs.mapM f = if ∀ x ∈ xs, guard x then .ok (xs.map g) else .error e := by
  induction xs with
  | nil => rfl
  | cons x xs ih =>
    rw [List.mapM_cons, h x List.mem_cons_self, ih fun y hy => h y (List.mem_cons_of_mem _ hy)]
    by_cases hx : guard x
    · by_cases hxs : ∀ y ∈ xs, guard y
      · rw [if_pos hx, if_pos hxs, if_pos (List.forall_mem_cons.mpr ⟨hx, hxs⟩)]
        rfl
      · rw [if_pos hx, if_neg hxs, if_neg fun hall => hxs (List.forall_mem_cons.mp hall).2]
        rfl
    · rw [if_neg hx, if_neg fun hall => hx (List.forall_mem_cons.mp hall).1]
      rfl

theorem mapM_map_ok {α β γ : Type} {f : β → Py γ} {encode : α → β} {decode : α → γ}
    {xs : List α} (h : ∀ x ∈ xs, f (encode x) = .ok (decode x)) :
    (xs.map encode).mapM f = .ok (xs.map decode) := by
  induction xs with
  | nil => rfl
  | cons x xs ih =>
    rw [List.map_cons, List.mapM_cons, h x List.mem_cons_self,
      ih fun y hy => h y (List.mem_cons_of_mem _ hy)]
    rfl

/-- `str(i)` is injective, so distinct layer ids have distinct keys. -/
theorem layerKey_injective {a b : Int} (h : toString a = toString b) : a = b :=
  Int.repr_injective h

end QCFuse.Source
