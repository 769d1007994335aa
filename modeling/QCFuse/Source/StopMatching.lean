import QCFuse.Library.Utf8
import QCFuse.Source.FinishCheck

/-!
# Stop strings and stop regexes of a request

`SamplingParams.normalize` with the bound it takes for each. A regex is its `sre_parse` tree; what it matches
is said of a piece of a text and of what stands before and behind it.
-/

set_option autoImplicit false

namespace QCFuse.Source

open QCFuse.Library

mutual

/-- An item of a pattern. `at` is a zero-width assertion, `other` whatever the length bound does not handle. -/
inductive SreItem where
  | literal (c : Char)
  | inSet (members : Char → Bool)
  | any
  | subpattern (inner : SubPattern)
  | branch (branches : SreBranches)
  | maxRepeat (least : Nat) (most : Option Nat) (inner : SubPattern)
  | minRepeat (least : Nat) (most : Option Nat) (inner : SubPattern)
  | at (holds : Text → Text → Bool)
  | other (matched : Text → Text → Text → Prop)

inductive SubPattern where
  | nil
  | cons (item : SreItem) (rest : SubPattern)

inductive SreBranches where
  | one (branch : SubPattern)
  | more (branch : SubPattern) (rest : SreBranches)

end

def maxLen : Nat := 2 ^ 30

mutual

def maxLengthFromItem : SreItem → Nat
  | .literal _ | .inSet _ | .any => 1
  | .subpattern inner => maxLengthFromSubpattern inner
  | .branch branches => maxLengthFromBranches branches
  | .maxRepeat _ most inner | .minRepeat _ most inner =>
    match most with
    | none => maxLen
    | some maxNumRepeat => maxNumRepeat * maxLengthFromSubpattern inner
  | .at _ => 0
  | .other _ => maxLen

/-- `_max_length_from_subpattern`. -/
def maxLengthFromSubpattern : SubPattern → Nat
  | .nil => 0
  | .cons item rest => maxLengthFromItem item + maxLengthFromSubpattern rest

def maxLengthFromBranches : SreBranches → Nat
  | .one branch => maxLengthFromSubpattern branch
  | .more branch rest => max (maxLengthFromSubpattern branch) (maxLengthFromBranches rest)

end

/-- Some of `parts` one after the other, each between what stands before and behind it. -/
def MatchesEach (matched : Text → Text → Text → Prop) : Text → List Text → Text → Prop
  | _, [], _ => True
  | before, part :: parts, behind =>
    matched before part (parts.flatten ++ behind) ∧ MatchesEach matched (before ++ part) parts behind

mutual

def SreItem.Matches : SreItem → Text → Text → Text → Prop
  | .literal c, _, u, _ => u = [c]
  | .inSet members, _, u, _ => ∃ c, members c = true ∧ u = [c]
  | .any, _, u, _ => ∃ c, c ≠ '\n' ∧ u = [c]
  | .subpattern inner, before, u, behind => inner.Matches before u behind
  | .branch branches, before, u, behind => branches.Matches before u behind
  | .maxRepeat least most inner, before, u, behind | .minRepeat least most inner, before, u, behind =>
    ∃ parts : List Text, u = parts.flatten ∧ least ≤ parts.length ∧ (∀ m ∈ most, parts.length ≤ m) ∧
      MatchesEach (SubPattern.Matches inner) before parts behind
  | .at holds, before, u, behind => u = [] ∧ holds before behind = true
  | .other matched, before, u, behind => matched before u behind

/-- The pattern matches `u` where it stands. -/
def SubPattern.Matches : SubPattern → Text → Text → Text → Prop
  | .nil, _, u, _ => u = []
  | .cons item rest, before, u, behind => ∃ v w, u = v ++ w ∧
      item.Matches before v (w ++ behind) ∧ rest.Matches (before ++ v) w behind

def SreBranches.Matches : SreBranches → Text → Text → Text → Prop
  | .one branch, before, u, behind => branch.Matches before u behind
  | .more branch rest, before, u, behind => branch.Matches before u behind ∨ rest.Matches before u behind

end

/-- What `re.search` answers for a pattern. -/
def SearchesPatterns (search : SubPattern → Text → Bool) : Prop :=
  ∀ pattern text, search pattern text = true ↔
    ∃ before u behind, text = before ++ u ++ behind ∧ pattern.Matches before u behind

/-- A parameter that is left out, one value, or a list. -/
inductive StopArg (α : Type) where
  | none
  | one (value : α)
  | many (values : List α)

def StopArg.toList {α : Type} : StopArg α → List α
  | .none => []
  | .one value => [value]
  | .many values => values

/-- The stop parameters of a request as they come in; a regex has been parsed. -/
structure RawStopParams where
  maxNewTokens : Nat
  stopTokenIds : List Int
  ignoreEos : Bool
  stopStrs : StopArg Text
  stopRegexStrs : StopArg SubPattern

/-- `SamplingParams.normalize(tokenizer)`. -/
def RawStopParams.normalize (params : RawStopParams) (tokenizer : Option ReqTokenizer) : StopParams SubPattern where
  maxNewTokens := params.maxNewTokens
  stopTokenIds := params.stopTokenIds
  ignoreEos := params.ignoreEos
  stopStrs := params.stopStrs.toList
  stopStrMaxLen := params.stopStrs.toList.foldl (fun stopStrMaxLen stopStr =>
    match tokenizer with
    | some tokenizer => max stopStrMaxLen (tokenizer.encode stopStr).length
    | none => max stopStrMaxLen stopStr.length) 0
  stopRegexStrs := params.stopRegexStrs.toList
  stopRegexMaxLen := params.stopRegexStrs.toList.foldl
    (fun stopRegexMaxLen stopRegex => max stopRegexMaxLen (maxLengthFromSubpattern stopRegex)) 0

/-- A tokenizer that decodes the octets of its tokens put together. -/
def ReqTokenizer.DecodesOctets (tokenizer : ReqTokenizer) (octets : Int → List UInt8) : Prop :=
  ∀ ids, tokenizer.decode ids = Utf8.decode (ids.flatMap octets)

end QCFuse.Source
