import QCFuse.Guarantees.TokenSelection
import QCFuse.Library.LargestClosed
import QCFuse.Library.Slices
import QCFuse.Source.EagleDraft

/-!
# The draft tree that EAGLE selects

Flattened indices, parents and scores line up at every depth, so a selection by score is a draft tree
with its parents, unless the places run out among tokens of one score.
-/

set_option autoImplicit false

namespace QCFuse.Guarantees

open QCFuse.Library QCFuse.Source

section Draft

variable {H : Type} {run : DraftRun H} {topk : Nat}

/-- The shape of what a forward of `beams` beams returns, and the range of its probabilities. -/
structure ShapedOutput (beams topk : Nat) (out : DraftOutput H) : Prop where
  p_rows : out.topkP.length = beams
  p_columns : ∀ row ∈ out.topkP, row.length = topk
  index_rows : out.topkIndex.length = beams
  index_columns : ∀ row ∈ out.topkIndex, row.length = topk
  hidden : out.hiddenStates.length = beams
  probability : ∀ row ∈ out.topkP, ∀ p ∈ row, 0 ≤ p ∧ p ≤ 1

/-- What a run of the draft model obeys. -/
structure ShapedRun (run : DraftRun H) (topk : Nat) : Prop where
  topk_pos : 0 < topk
  first : ShapedOutput 1 topk run.first
  forward : ∀ i inputIds hiddenStates, inputIds.length = topk → hiddenStates.length = topk →
    ShapedOutput topk topk (run.forward i inputIds hiddenStates)
  fastTopk : ∀ i, ChoosesLargest (run.fastTopk i)

theorem ChoosesLargest.list {topScores : TopK Rat} (h : ChoosesLargest topScores) {xs : List Rat} {k : Nat}
    (hk : k ≤ xs.length) : Largest (fun i => xs.getD i 0) xs.length k (topScores.run xs k) := by
  have hxs : (List.range xs.length).map (fun i => xs.getD i 0) = xs := by
    refine List.ext_getElem (by simp) fun i hi hi' => ?_
    rw [List.getElem_map, List.getElem_range, List.getD_eq_getElem?_getD, List.getElem?_eq_getElem hi',
      Option.getD_some]
  have hlargest := h (fun i => xs.getD i 0) xs.length k hk
  rwa [hxs] at hlargest

theorem flatten_block {α : Type} {xs : List (List α)} {n : Nat} (hxs : ∀ row ∈ xs, row.length = n) (b : Nat) {t : Nat}
    (ht : t < n) : xs.flatten[b * n + t]? = xs[b]?.bind fun row => row[t]? := by
  rw [← List.flatMap_id]
  exact getElem?_flatMap_block hxs b ht

theorem length_flatten_block {α : Type} {xs : List (List α)} {n : Nat} (hxs : ∀ row ∈ xs, row.length = n) :
    xs.flatten.length = xs.length * n := by
  rw [← List.flatMap_id]
  exact length_flatMap_block hxs

/-- The scores, tokens and parents that turn `i` adds. -/
def levelSize (topk : Nat) : Nat → Nat
  | 0 => topk
  | _ + 1 => topk ^ 2

/-- The flattened index of entry `c` of turn `i`. -/
def flatIndex (topk : Nat) : Nat → Nat → Nat
  | 0, c => c
  | i + 1, c => topk ^ 2 * i + topk + c

/-- The entry of turn `i` that its beam `b` goes on from. -/
def beamEntry (run : DraftRun H) (topk : Nat) : Nat → Nat → Nat
  | 0, b => b
  | i + 1, b => ((run.fastTopk (i + 1)).run (draftStep run topk (i + 1)).treeScores topk).getD b 0

/-- The beam of turn `i`'s forward that entry `c` was drafted by. -/
def beamOf (topk : Nat) : Nat → Nat → Nat
  | 0, _ => 0
  | _ + 1, c => c / topk

/-- What a turn leaves: `topk` beams that go on from entries of it, and its entries. -/
structure TurnOk (run : DraftRun H) (topk i : Nat) : Prop where
  out : ShapedOutput (if i = 0 then 1 else topk) topk (draftVars run topk i).1
  scores : (draftStep run topk i).treeScores.length = levelSize topk i
  tokens : (draftStep run topk i).treeTokens = (draftVars run topk i).1.topkIndex.flatten
  entry_lt : ∀ b < topk, beamEntry run topk i b < levelSize topk i
  inputIds_length : (draftStep run topk i).inputIds.length = topk
  inputIds : ∀ b < topk, (draftStep run topk i).inputIds[b]? =
    (draftStep run topk i).treeTokens[beamEntry run topk i b]?
  hidden_length : (draftStep run topk i).hiddenStates.length = topk
  hidden : ∀ b < topk, (draftStep run topk i).hiddenStates[b]? =
    (draftVars run topk i).1.hiddenStates[beamOf topk i (beamEntry run topk i b)]?
  scores_length : (draftStep run topk i).scores.length = topk
  beamScores : ∀ b < topk, (draftStep run topk i).scores[b]? =
    (draftStep run topk i).treeScores[beamEntry run topk i b]?
  parents_length : (draftStep run topk i).treeParents.length = if i = 0 then topk + 1 else topk
  parents : ∀ b < topk, (draftStep run topk i).treeParents[if i = 0 then b + 1 else b]? =
    some (flatIndex topk i (beamEntry run topk i b) : Int)

theorem TurnOk.first (h : ShapedRun run topk) : TurnOk run topk 0 := by
  have hp : run.first.topkP.flatten.length = topk := by
    rw [length_flatten_block h.first.p_columns, h.first.p_rows, Nat.one_mul]
  have hindex : run.first.topkIndex.flatten.length = topk := by
    rw [length_flatten_block h.first.index_columns, h.first.index_rows, Nat.one_mul]
  obtain ⟨hidden, hhidden⟩ := List.length_eq_one_iff.mp h.first.hidden
  exact {
    out := h.first
    scores := hp
    tokens := rfl
    entry_lt := fun b hb => hb
    inputIds_length := hindex
    inputIds := fun b _ => rfl
    hidden_length := by
      show (run.first.hiddenStates.flatMap fun hidden => List.replicate topk hidden).length = topk
      rw [hhidden, List.flatMap_singleton, List.length_replicate]
    hidden := fun b hb => by
      show (run.first.hiddenStates.flatMap fun hidden => List.replicate topk hidden)[b]? =
        run.first.hiddenStates[0]?
      rw [hhidden, List.flatMap_singleton, List.getElem?_replicate_of_lt hb]
      rfl
    scores_length := hp
    beamScores := fun b _ => rfl
    parents_length := by
      show ((List.range (topk + 1)).map fun (n : Nat) => (n : Int) - 1).length = topk + 1
      rw [List.length_map, List.length_range]
    parents := fun b hb => by
      show ((List.range (topk + 1)).map fun (n : Nat) => (n : Int) - 1)[b + 1]? = some (b : Int)
      rw [List.getElem?_map, List.getElem?_range (by omega)]
      simp }

theorem expandScores_rows {scores : List Rat} {topkP : List (List Rat)} (hp : ∀ row ∈ topkP, row.length = topk) :
    ∀ row ∈ List.zipWith (fun score row => row.map fun p => score * p) scores topkP, row.length = topk := by
  intro row hrow
  obtain ⟨i, hi⟩ := List.mem_iff_getElem?.mp hrow
  obtain ⟨score, row', -, hrow', rfl⟩ := List.getElem?_zipWith_eq_some.mp hi
  rw [List.length_map]
  exact hp row' (List.mem_of_getElem? hrow')

theorem expandScores_length {scores : List Rat} {topkP : List (List Rat)} (hscores : scores.length = topk)
    (hrows : topkP.length = topk) (hp : ∀ row ∈ topkP, row.length = topk) :
    (expandScores scores topkP).length = topk ^ 2 := by
  rw [expandScores, length_flatten_block (expandScores_rows hp), List.length_zipWith, hscores, hrows, Nat.min_self,
    Nat.pow_two]

/-- The score of a child is its parent's score times its probability. -/
theorem expandScores_get {scores : List Rat} {topkP : List (List Rat)} (hp : ∀ row ∈ topkP, row.length = topk)
    {b t : Nat} (ht : t < topk) {score p : Rat} {row : List Rat} (hscore : scores[b]? = some score)
    (hrow : topkP[b]? = some row) (hp' : row[t]? = some p) :
    (expandScores scores topkP)[b * topk + t]? = some (score * p) := by
  have hzip : (List.zipWith (fun score row => row.map fun p => score * p) scores topkP)[b]? =
      some (row.map fun p => score * p) :=
    List.getElem?_zipWith_eq_some.mpr ⟨score, row, hscore, hrow, rfl⟩
  rw [expandScores, flatten_block (expandScores_rows hp) b ht, hzip, Option.bind_some, List.getElem?_map, hp']
  rfl

theorem filterMap_total {α β : Type} {f : α → Option β} {xs : List α} (hf : ∀ x ∈ xs, (f x).isSome) :
    (xs.filterMap f).length = xs.length ∧ ∀ i : Nat, (xs.filterMap f)[i]? = xs[i]?.bind f := by
  induction xs with
  | nil => exact ⟨rfl, fun i => rfl⟩
  | cons x xs ih =>
    obtain ⟨y, hy⟩ := Option.isSome_iff_exists.mp (hf x List.mem_cons_self)
    obtain ⟨hlen, hget⟩ := ih fun x' hx' => hf x' (List.mem_cons_of_mem x hx')
    rw [List.filterMap_cons_some hy]
    refine ⟨congrArg (· + 1) hlen, fun i => ?_⟩
    cases i with
    | zero => exact hy.symm
    | succ i => exact hget i

theorem TurnOk.next (h : ShapedRun run topk) {i : Nat} (hi : TurnOk run topk i) : TurnOk run topk (i + 1) := by
  have hout : ShapedOutput topk topk (draftVars run topk (i + 1)).1 :=
    h.forward i _ _ hi.inputIds_length hi.hidden_length
  have hlen : (expandScores (draftVars run topk (i + 1)).2 (draftVars run topk (i + 1)).1.topkP).length = topk ^ 2 :=
    expandScores_length hi.scores_length hout.p_rows hout.p_columns
  have hsize : topk ≤ topk ^ 2 := Nat.le_self_pow (by decide) topk
  have hlargest := (h.fastTopk (i + 1)).list (hlen.symm ▸ hsize)
  have htokens : (draftVars run topk (i + 1)).1.topkIndex.flatten.length = topk ^ 2 := by
    rw [length_flatten_block hout.index_columns, hout.index_rows, Nat.pow_two]
  generalize hvars : draftVars run topk (i + 1) = vars at *
  have hstep : draftStep run topk (i + 1) = selectTopKTokens (run.fastTopk (i + 1)) (i + 1) vars.1 vars.2 topk := by
    rw [draftStep, hvars]
  simp only [selectTopKTokens, Nat.add_eq_zero_iff, Nat.one_ne_zero, and_false, if_false] at hstep
  generalize hindices : (run.fastTopk (i + 1)).run (expandScores vars.2 vars.1.topkP) topk = indices at *
  have hentry : ∀ b, beamEntry run topk (i + 1) b = indices.getD b 0 := fun b => by
    rw [beamEntry, hstep]
    exact congrArg (·.getD b 0) hindices
  have hget : ∀ b < topk, indices[b]? = some (beamEntry run topk (i + 1) b) := fun b hb => by
    have hlt : b < indices.length := hlargest.length.symm ▸ hb
    rw [hentry, List.getD_eq_getElem?_getD, List.getElem?_eq_getElem hlt, Option.getD_some]
  have hbound : ∀ b < topk, beamEntry run topk (i + 1) b < topk ^ 2 := fun b hb =>
    hlen ▸ hlargest.bound _ (List.mem_of_getElem? (hget b hb))
  have hidden : ∀ c ∈ indices, (vars.1.hiddenStates[c / topk]?).isSome := fun c hc => by
    have hlt : c < topk * topk := Nat.pow_two topk ▸ hlen ▸ hlargest.bound c hc
    have hbeam : c / topk < vars.1.hiddenStates.length := hout.hidden.symm ▸ Nat.div_lt_of_lt_mul hlt
    rw [List.getElem?_eq_getElem hbeam]
    rfl
  obtain ⟨hhidden, hhiddenGet⟩ := filterMap_total hidden
  have hlist : indices.length = topk := hlargest.length
  refine ⟨by rw [hvars]; exact hout, ?_, ?_, hbound, ?_, fun b hb => ?_, ?_, fun b hb => ?_, ?_, fun b hb => ?_, ?_,
    fun b hb => ?_⟩
  · rw [hstep]
    exact hlen
  · rw [hstep, hvars]
  · rw [hstep, List.length_map, hlist]
  · rw [hstep, List.getElem?_map, hget b hb, Option.map_some, List.getD_eq_getElem?_getD,
      List.getElem?_eq_getElem (htokens.symm ▸ hbound b hb), Option.getD_some]
  · rw [hstep]
    exact hhidden.trans hlist
  · rw [hstep, hvars]
    exact (hhiddenGet b).trans (by rw [hget b hb]; rfl)
  · rw [hstep, List.length_map, hlist]
  · rw [hstep, List.getElem?_map, hget b hb, Option.map_some, List.getD_eq_getElem?_getD,
      List.getElem?_eq_getElem (hlen.symm ▸ hbound b hb), Option.getD_some]
  · rw [hstep, List.length_map, hlist]
    rfl
  · rw [hstep, if_neg (Nat.succ_ne_zero i), List.getElem?_map, hget b hb, Option.map_some, Nat.add_sub_cancel,
      flatIndex]
    push_cast
    ring_nf

/-- Every turn is as described. -/
theorem turnOk (h : ShapedRun run topk) (i : Nat) : TurnOk run topk i := by
  induction i with
  | zero => exact .first h
  | succ i ih => exact ih.next h

/-! ## The concatenated lists -/

/-- Blocks laid end to end, the first of another length than the rest. -/
theorem levels_get {α : Type} {g : Nat → List α} {a b : Nat} (hfirst : (g 0).length = a)
    (hrest : ∀ i, (g (i + 1)).length = b) (n : Nat) :
    (∀ c < a, 0 < n → ((List.range n).flatMap g)[c]? = (g 0)[c]?) ∧
      ∀ i c, i + 1 < n → c < b → ((List.range n).flatMap g)[b * i + a + c]? = (g (i + 1))[c]? := by
  cases n with
  | zero => exact ⟨fun c _ h => absurd h (Nat.lt_irrefl 0), fun i c h => absurd h (Nat.not_lt_zero _)⟩
  | succ n =>
    rw [List.range_succ_eq_map, List.flatMap_cons, List.flatMap_map]
    refine ⟨fun c hc _ => List.getElem?_append_left (hfirst ▸ hc), fun i c hi hc => ?_⟩
    have hblock : ((List.range n).flatMap fun i => g (i + 1))[i * b + c]? = _ :=
      getElem?_flatMap_block (fun i _ => hrest i) i hc
    rw [List.getElem?_append_right (by omega), hfirst, show b * i + a + c - a = i * b + c by rw [Nat.mul_comm]; omega]
    rw [hblock, List.getElem?_range (by omega)]
    rfl

theorem levels_length {α : Type} {g : Nat → List α} {a b : Nat} (hfirst : (g 0).length = a)
    (hrest : ∀ i, (g (i + 1)).length = b) (n : Nat) : ((List.range (n + 1)).flatMap g).length = b * n + a := by
  rw [List.range_succ_eq_map, List.flatMap_cons, List.flatMap_map, List.length_append, hfirst,
    length_flatMap_block (n := b) fun i _ => hrest i, List.length_range, Nat.mul_comm, Nat.add_comm]

/-- The scores, tokens and parents of `n` turns. -/
def scoreList (run : DraftRun H) (topk n : Nat) : List Rat :=
  (List.range n).flatMap fun i => (draftStep run topk i).treeScores

def tokenList (run : DraftRun H) (topk n : Nat) : List Nat :=
  (List.range n).flatMap fun i => (draftStep run topk i).treeTokens

def parentsList (run : DraftRun H) (topk n : Nat) : List Int :=
  (List.range n).flatMap fun i => (draftStep run topk i).treeParents

/-- The parent of a token, by entry `s // topk` of a list of parents. -/
def parentOf (topk : Nat) (parentList : List Int) (s : Nat) : Option Nat :=
  match parentList[s / topk]? with
  | some parent => if parent < 0 then none else some parent.toNat
  | none => none

theorem scoreList_get (h : ShapedRun run topk) {n i c : Nat} (hi : i < n) (hc : c < levelSize topk i) :
    (scoreList run topk n)[flatIndex topk i c]? = (draftStep run topk i).treeScores[c]? := by
  obtain ⟨hfirst, hrest⟩ := levels_get (g := fun i => (draftStep run topk i).treeScores) (turnOk h 0).scores
    (fun i => (turnOk h (i + 1)).scores) n
  cases i with
  | zero => exact hfirst c hc hi
  | succ i => exact hrest i c hi hc

theorem tokens_length (h : ShapedRun run topk) (i : Nat) :
    (draftStep run topk i).treeTokens.length = levelSize topk i := by
  have hout := (turnOk h i).out
  rw [(turnOk h i).tokens, length_flatten_block hout.index_columns, hout.index_rows]
  cases i with
  | zero => rw [if_pos rfl, Nat.one_mul]; rfl
  | succ i => rw [if_neg (Nat.succ_ne_zero i), ← Nat.pow_two]; rfl

theorem tokenList_get (h : ShapedRun run topk) {n i c : Nat} (hi : i < n) (hc : c < levelSize topk i) :
    (tokenList run topk n)[flatIndex topk i c]? = (draftStep run topk i).treeTokens[c]? := by
  obtain ⟨hfirst, hrest⟩ := levels_get (g := fun i => (draftStep run topk i).treeTokens) (tokens_length h 0)
    (fun i => tokens_length h (i + 1)) n
  cases i with
  | zero => exact hfirst c hc hi
  | succ i => exact hrest i c hi hc

/-- The parents of a level are the entries that the beams of the turn before go on from. -/
theorem parentOf_flatIndex (h : ShapedRun run topk) {n : Nat} :
    (∀ c < topk, parentOf topk (parentsList run topk n) (flatIndex topk 0 c) = none) ∧
      ∀ i c, i < n → c < topk ^ 2 → parentOf topk (parentsList run topk n) (flatIndex topk (i + 1) c) =
        some (flatIndex topk i (beamEntry run topk i (c / topk))) := by
  have hpos := h.topk_pos
  obtain ⟨hfirst, hrest⟩ := levels_get (g := fun i => (draftStep run topk i).treeParents)
    (turnOk h 0).parents_length (fun i => (turnOk h (i + 1)).parents_length) n
  constructor
  · intro c hc
    have hdiv : flatIndex topk 0 c / topk = 0 := Nat.div_eq_of_lt hc
    have hroot : (parentsList run topk n)[0]? = none ∨ (parentsList run topk n)[0]? = some (-1) := by
      cases n with
      | zero => exact .inl rfl
      | succ n =>
        refine .inr ((hfirst 0 (Nat.succ_pos topk) (Nat.succ_pos n)).trans ?_)
        show ((List.range (topk + 1)).map fun (n : Nat) => (n : Int) - 1)[0]? = some (-1)
        rw [List.getElem?_map, List.getElem?_range (Nat.succ_pos topk)]
        rfl
    rw [parentOf, hdiv]
    rcases hroot with hroot | hroot
    · rw [hroot]
    · rw [hroot]
      rfl
  · intro i c hi hc
    have hbeam : c / topk < topk := Nat.div_lt_of_lt_mul (Nat.pow_two topk ▸ hc)
    have hdiv : flatIndex topk (i + 1) c / topk = topk * i + 1 + c / topk := by
      rw [flatIndex, show topk ^ 2 * i + topk + c = c + topk * (topk * i + 1) by ring, Nat.add_mul_div_left _ _ hpos]
      omega
    have hparent := (turnOk h i).parents (c / topk) hbeam
    have hentry : (parentsList run topk n)[topk * i + 1 + c / topk]? =
        some (flatIndex topk i (beamEntry run topk i (c / topk)) : Int) := by
      cases i with
      | zero =>
        have hget := hfirst (c / topk + 1) (by rw [if_pos rfl]; omega) hi
        rw [← hparent, if_pos rfl, ← hget, Nat.mul_zero, Nat.zero_add, Nat.add_comm 1]
        rfl
      | succ i =>
        have hget := hrest i (c / topk) hi hbeam
        rw [if_neg (Nat.succ_ne_zero i)] at hparent
        have hindex : topk * (i + 1) + 1 + c / topk = topk * i + (topk + 1) + c / topk := by ring
        rw [← hparent, ← hget, parentsList, hindex]
        rfl
    rw [parentOf, hdiv, hentry]
    simp only [Int.toNat_natCast, if_neg (not_lt.mpr (Int.natCast_nonneg _))]

/-! ## DraftedAlong tokens -/

/-- The token at a flattened index was drafted by the beam that its parent was fed to: its depth, the hidden
state that this beam came out with, and the probabilities from the token up to the root. -/
inductive DraftedAlong (run : DraftRun H) (topk : Nat) (parentList : List Int) :
    Nat → Nat → Nat → H → List Rat → Prop where
  | first {s t token : Nat} {hidden : H} {p : Rat} (hroot : parentOf topk parentList s = none)
      (htoken : run.first.topkIndex.flatten[t]? = some token) (hp : run.first.topkP.flatten[t]? = some p)
      (hhidden : run.first.hiddenStates[0]? = some hidden) : DraftedAlong run topk parentList 0 s token hidden [p]
  | child {i s parent b t token token' : Nat} {hidden hidden' : H} {p : Rat} {ps : List Rat} {out : DraftOutput H}
      {rowP : List Rat} {rowIndex : List Nat} (hdrafted : DraftedAlong run topk parentList i parent token hidden ps)
      (hparent : parentOf topk parentList s = some parent)
      (hfed : (draftStep run topk i).inputIds[b]? = some token)
      (hfedHidden : (draftStep run topk i).hiddenStates[b]? = some hidden)
      (hout : run.forward i (draftStep run topk i).inputIds (draftStep run topk i).hiddenStates = out)
      (hrowP : out.topkP[b]? = some rowP) (hp : rowP[t]? = some p)
      (hrowIndex : out.topkIndex[b]? = some rowIndex) (htoken : rowIndex[t]? = some token')
      (hhidden : out.hiddenStates[b]? = some hidden') :
      DraftedAlong run topk parentList (i + 1) s token' hidden' (p :: ps)

theorem exists_getElem? {α : Type} {xs : List α} {i n : Nat} (hlen : xs.length = n) (hi : i < n) :
    ∃ x, xs[i]? = some x :=
  ⟨_, List.getElem?_eq_getElem (hlen ▸ hi)⟩

/-- An entry of the next turn scores its beam's entry times a probability of the beam's row. -/
theorem child_score (h : ShapedRun run topk) {i c : Nat} (hc : c < topk ^ 2) {score : Rat}
    (hscore : (draftStep run topk i).treeScores[beamEntry run topk i (c / topk)]? = some score) :
    ∃ rowP p, (draftVars run topk (i + 1)).1.topkP[c / topk]? = some rowP ∧ rowP[c % topk]? = some p ∧
      (0 ≤ p ∧ p ≤ 1) ∧ (draftStep run topk (i + 1)).treeScores[c]? = some (score * p) := by
  have hout : ShapedOutput topk topk (draftVars run topk (i + 1)).1 := (turnOk h (i + 1)).out
  have hbeam : c / topk < topk := Nat.div_lt_of_lt_mul (Nat.pow_two topk ▸ hc)
  have hcolumn : c % topk < topk := Nat.mod_lt c h.topk_pos
  obtain ⟨rowP, hrowP⟩ := exists_getElem? hout.p_rows hbeam
  have hmem := List.mem_of_getElem? hrowP
  obtain ⟨p, hp⟩ := exists_getElem? (hout.p_columns rowP hmem) hcolumn
  have hbeamScore := ((turnOk h i).beamScores _ hbeam).trans hscore
  have hexpanded := expandScores_get hout.p_columns hcolumn hbeamScore hrowP hp
  rw [Nat.div_add_mod'] at hexpanded
  exact ⟨rowP, p, hrowP, hp, hout.probability rowP hmem p (List.mem_of_getElem? hp), hexpanded⟩

/-- Every entry of a turn is a drafted token, with the product of the probabilities on its path as its score. -/
theorem drafted_entry (h : ShapedRun run topk) (n : Nat) {i c : Nat} (hi : i ≤ n) (hc : c < levelSize topk i) :
    ∃ token hidden ps, DraftedAlong run topk (parentsList run topk n) i (flatIndex topk i c) token hidden ps ∧
      (draftStep run topk i).treeTokens[c]? = some token ∧
      (draftStep run topk i).treeScores[c]? = some ps.prod ∧
      (draftVars run topk i).1.hiddenStates[beamOf topk i c]? = some hidden ∧ ∀ p ∈ ps, 0 ≤ p ∧ p ≤ 1 := by
  induction i generalizing c with
  | zero =>
    have hturn := turnOk h 0
    obtain ⟨token, htoken⟩ := exists_getElem? (tokens_length h 0) hc
    obtain ⟨p, hp⟩ := exists_getElem? hturn.scores hc
    obtain ⟨hidden, hhidden⟩ := exists_getElem? h.first.hidden Nat.zero_lt_one
    have hrange : 0 ≤ p ∧ p ≤ 1 := by
      obtain ⟨row, hrow, hmem⟩ := List.mem_flatten.mp (List.mem_of_getElem? hp)
      exact h.first.probability row hrow p hmem
    refine ⟨token, hidden, [p], .first ((parentOf_flatIndex h).1 c hc) htoken hp hhidden, htoken, ?_, hhidden,
      fun q hq => ?_⟩
    · rw [List.prod_singleton]
      exact hp
    · rw [List.mem_singleton.mp hq]
      exact hrange
  | succ i ih =>
    have hpos := h.topk_pos
    have hturn := turnOk h i
    have hout : ShapedOutput topk topk (draftVars run topk (i + 1)).1 := (turnOk h (i + 1)).out
    have hbeam : c / topk < topk := Nat.div_lt_of_lt_mul (Nat.pow_two topk ▸ hc)
    have hcolumn : c % topk < topk := Nat.mod_lt c hpos
    obtain ⟨token, hidden, ps, hdrafted, htoken, hscore, hhidden, hrange⟩ :=
      ih (by omega) (hturn.entry_lt _ hbeam)
    obtain ⟨rowP, p, hrowP, hp, hprobability, hchild⟩ := child_score h hc hscore
    obtain ⟨rowIndex, hrowIndex⟩ := exists_getElem? hout.index_rows hbeam
    obtain ⟨token', htoken'⟩ := exists_getElem? (hout.index_columns rowIndex (List.mem_of_getElem? hrowIndex)) hcolumn
    obtain ⟨hidden', hhidden'⟩ := exists_getElem? hout.hidden hbeam
    have hsplit : c / topk * topk + c % topk = c := Nat.div_add_mod' c topk
    have hparent := (parentOf_flatIndex (n := n) h).2 i c (by omega) hc
    refine ⟨token', hidden', p :: ps, .child hdrafted hparent ((hturn.inputIds _ hbeam).trans htoken)
      ((hturn.hidden _ hbeam).trans hhidden) rfl hrowP hp hrowIndex htoken' hhidden', ?_, ?_, hhidden',
      fun q hq => ?_⟩
    · rw [(turnOk h (i + 1)).tokens, ← hsplit, flatten_block hout.index_columns _ hcolumn, hrowIndex]
      exact htoken'
    · rw [List.prod_cons, mul_comm]
      exact hchild
    · rcases List.mem_cons.mp hq with rfl | hq
      · exact hprobability
      · exact hrange q hq

/-! ## The selection -/

theorem exists_entry (hpos : 0 < topk) {m s : Nat} (hs : s < topk ^ 2 * m + topk) :
    ∃ i c, i ≤ m ∧ c < levelSize topk i ∧ s = flatIndex topk i c := by
  by_cases hfirst : s < topk
  · exact ⟨0, s, Nat.zero_le m, hfirst, rfl⟩
  · have hsquare : 0 < topk ^ 2 := Nat.pow_pos hpos
    have hlt : s - topk < topk ^ 2 * m := by omega
    have hsplit := Nat.div_add_mod (s - topk) (topk ^ 2)
    refine ⟨(s - topk) / topk ^ 2 + 1, (s - topk) % topk ^ 2, Nat.div_lt_of_lt_mul hlt, Nat.mod_lt _ hsquare, ?_⟩
    rw [flatIndex]
    omega

theorem scoreList_length (h : ShapedRun run topk) (m : Nat) :
    (scoreList run topk (m + 1)).length = topk ^ 2 * m + topk :=
  levels_length (g := fun i => (draftStep run topk i).treeScores) (turnOk h 0).scores
    (fun i => (turnOk h (i + 1)).scores) m

/-- The score of a flattened index after `n` turns. -/
def scoreAt (run : DraftRun H) (topk n s : Nat) : Rat := (scoreList run topk n).getD s 0

theorem scoreAt_eq (h : ShapedRun run topk) {n i c : Nat} (hi : i < n) (hc : c < levelSize topk i) {score : Rat}
    (hscore : (draftStep run topk i).treeScores[c]? = some score) :
    scoreAt run topk n (flatIndex topk i c) = score := by
  rw [scoreAt, List.getD_eq_getElem?_getD, scoreList_get h hi hc, hscore]
  rfl

/-- A parent comes before its child, and scores at least as high. -/
theorem parent_before (h : ShapedRun run topk) {m s parent : Nat} (hs : s < (scoreList run topk (m + 1)).length)
    (hparent : parentOf topk (parentsList run topk m) s = some parent) :
    parent < s ∧ scoreAt run topk (m + 1) s ≤ scoreAt run topk (m + 1) parent := by
  have hpos := h.topk_pos
  rw [scoreList_length h] at hs
  obtain ⟨i, c, hi, hc, rfl⟩ := exists_entry hpos hs
  cases i with
  | zero =>
    rw [(parentOf_flatIndex h).1 c hc] at hparent
    cases hparent
  | succ i =>
    rw [(parentOf_flatIndex h).2 i c hi hc] at hparent
    obtain rfl := Option.some.inj hparent
    have hbeam : c / topk < topk := Nat.div_lt_of_lt_mul (Nat.pow_two topk ▸ hc)
    have hentry := (turnOk h i).entry_lt _ hbeam
    constructor
    · cases i with
      | zero =>
        have hlt : beamEntry run topk 0 (c / topk) < topk := hentry
        simp only [flatIndex]
        omega
      | succ i =>
        have hlt : beamEntry run topk (i + 1) (c / topk) < topk ^ 2 := hentry
        simp only [flatIndex, Nat.mul_succ]
        omega
    · obtain ⟨token, hidden, ps, -, -, hscore, -, hrange⟩ := drafted_entry h m (Nat.le_of_lt hi) hentry
      obtain ⟨rowP, p, -, -, ⟨-, hle⟩, hchild⟩ := child_score h hc hscore
      rw [scoreAt_eq h (Nat.lt_succ_of_le hi) hc hchild, scoreAt_eq h (by omega) hentry hscore]
      exact mul_le_of_le_one_right (List.prod_nonneg fun q hq => (hrange q hq).1) hle

/-- What the selection is to be: a tree with its parents, drafted along the beams, the best by score. -/
structure EncodesTree (run : DraftRun H) (topk n : Nat) (sel : DraftSelection) : Prop where
  increasing : sel.topScoresIndex.Pairwise (· < ·)
  closed : ∀ s ∈ sel.topScoresIndex, ∀ parent ∈ parentOf topk sel.parentList s,
    parent ∈ sel.topScoresIndex ∧ parent < s
  tokens : sel.draftTokens = sel.topScoresIndex.map fun s => (tokenList run topk n).getD s 0
  drafted : ∀ s ∈ sel.topScoresIndex, ∃ depth token hidden ps,
    DraftedAlong run topk sel.parentList depth s token hidden ps ∧ (tokenList run topk n)[s]? = some token ∧
      scoreAt run topk n s = ps.prod
  best : ∀ s ∈ sel.topScoresIndex, ∀ other < (scoreList run topk n).length, other ∉ sel.topScoresIndex →
    scoreAt run topk n other ≤ scoreAt run topk n s

/-- The `k` places do not run out among tokens of one score of which one is the parent of another. -/
def CutKeepsParents (run : DraftRun H) (topk n k : Nat) : Prop :=
  ∀ s parent, s < (scoreList run topk n).length → parentOf topk (parentsList run topk (n - 1)) s = some parent →
    scoreAt run topk n parent = scoreAt run topk n s →
    ¬ RunsOutAt (scoreAt run topk n) (scoreList run topk n).length k (scoreAt run topk n s)

/-- `draft_forward` for at least one step and a selection that `torch.topk` can make. -/
theorem draftForward_eq (topScores : TopK Rat) {m numDraftToken : Nat} (hpos : numDraftToken ≠ 0)
    (hk : numDraftToken - 1 ≤ (scoreList run topk (m + 1)).length) :
    draftForward run topk topScores (m + 1) numDraftToken = .ok {
      parentList := parentsList run topk m
      topScoresIndex := (topScores.run (scoreList run topk (m + 1)) (numDraftToken - 1)).mergeSort
      draftTokens := (topScores.run (scoreList run topk (m + 1)) (numDraftToken - 1)).mergeSort.map fun s =>
        (tokenList run topk (m + 1)).getD s 0 } := by
  have hscores : ((List.range (m + 1)).map (draftStep run topk)).flatMap DraftStep.treeScores =
      scoreList run topk (m + 1) := List.flatMap_map _ _ _
  have htokens : ((List.range (m + 1)).map (draftStep run topk)).flatMap DraftStep.treeTokens =
      tokenList run topk (m + 1) := List.flatMap_map _ _ _
  have hparents : (if 1 < ((List.range (m + 1)).map (draftStep run topk)).length then
      ((List.range (m + 1)).map (draftStep run topk)).dropLast.flatMap DraftStep.treeParents else []) =
        parentsList run topk m := by
    rw [List.length_map, List.length_range, ← List.map_dropLast, List.range_succ, List.dropLast_concat,
      List.flatMap_map]
    cases m with
    | zero => rfl
    | succ m => exact if_pos (by omega)
  have hne : ((List.range (m + 1)).map (draftStep run topk)).isEmpty = false := by
    rw [List.isEmpty_eq_false_iff]
    simp
  unfold draftForward organizeDraftResults
  simp only [hscores, htokens, hparents, hne, Bool.false_eq_true, if_false]
  rw [if_neg (not_or.mpr ⟨hpos, Nat.not_lt.mpr hk⟩)]

/-- A selection that `torch.topk` cannot make. -/
theorem draftForward_error (topScores : TopK Rat) {m numDraftToken : Nat}
    (h : numDraftToken = 0 ∨ (scoreList run topk (m + 1)).length < numDraftToken - 1) :
    draftForward run topk topScores (m + 1) numDraftToken =
      .error (.runtimeError "selected index k out of range") := by
  have hscores : ((List.range (m + 1)).map (draftStep run topk)).flatMap DraftStep.treeScores =
      scoreList run topk (m + 1) := List.flatMap_map _ _ _
  have hne : ((List.range (m + 1)).map (draftStep run topk)).isEmpty = false := by
    rw [List.isEmpty_eq_false_iff]
    simp
  unfold draftForward organizeDraftResults
  simp only [hscores, hne, Bool.false_eq_true, if_false]
  rw [if_pos h]

/-- All but the parents holds of every selection, and with closed choices these do too. -/
theorem encodesTree_of_closed (h : ShapedRun run topk) {m k : Nat} {chosen : List Nat}
    (hlargest : Largest (scoreAt run topk (m + 1)) (scoreList run topk (m + 1)).length k chosen)
    (hclosed : ∀ s ∈ chosen, ∀ parent ∈ parentOf topk (parentsList run topk m) s, parent ∈ chosen) :
    EncodesTree run topk (m + 1) ⟨parentsList run topk m, chosen.mergeSort,
      chosen.mergeSort.map fun s => (tokenList run topk (m + 1)).getD s 0⟩ where
  increasing := by
    have hsorted : chosen.mergeSort.Pairwise fun a b => decide (a ≤ b) = true :=
      List.pairwise_mergeSort (fun a b c hab hbc => by simp only [decide_eq_true_eq] at *; omega)
        (fun a b => by simp only [Bool.or_eq_true, decide_eq_true_eq]; omega) chosen
    have hnodup : chosen.mergeSort.Nodup := (List.mergeSort_perm chosen _).nodup_iff.mpr hlargest.nodup
    exact (hsorted.and hnodup).imp fun ⟨hle, hne⟩ => Nat.lt_of_le_of_ne (of_decide_eq_true hle) hne
  closed s hs parent hparent := by
    have hmem := List.mem_mergeSort.mp hs
    exact ⟨List.mem_mergeSort.mpr (hclosed s hmem parent hparent),
      (parent_before h (hlargest.bound s hmem) hparent).1⟩
  tokens := rfl
  drafted s hs := by
    have hlt := hlargest.bound s (List.mem_mergeSort.mp hs)
    rw [scoreList_length h] at hlt
    obtain ⟨i, c, hi, hc, rfl⟩ := exists_entry h.topk_pos hlt
    obtain ⟨token, hidden, ps, hdrafted, htoken, hscore, -, -⟩ := drafted_entry h m hi hc
    exact ⟨i, token, hidden, ps, hdrafted, (tokenList_get h (Nat.lt_succ_of_le hi) hc).trans htoken,
      scoreAt_eq h (Nat.lt_succ_of_le hi) hc hscore⟩
  best s hs other hother hout :=
    hlargest.largest s (List.mem_mergeSort.mp hs) other hother fun hmem => hout (List.mem_mergeSort.mpr hmem)

/-- A `torch.topk` that makes this choice on this list. -/
def choosing (xs : List Rat) (k : Nat) (chosen : List Nat) : TopK Rat where
  run ys j := if ys = xs ∧ j = k then chosen else (firstLargest 0).run ys j

theorem choosing_run (xs : List Rat) (k : Nat) (chosen : List Nat) : (choosing xs k chosen).run xs k = chosen :=
  if_pos ⟨rfl, rfl⟩

theorem choosing_chooses {xs : List Rat} {k : Nat} {chosen : List Nat}
    (h : Largest (fun i => xs.getD i 0) xs.length k chosen) : ChoosesLargest (choosing xs k chosen) := by
  intro score n j hj
  rw [choosing]
  dsimp only
  split_ifs with heq
  · obtain ⟨rfl, rfl⟩ := heq
    rw [List.length_map, List.length_range] at h
    exact h.congr fun i hi => firstLargest_scores 0 score hi
  · exact firstLargest_chooses 0 score n j hj

/-- The selection is a draft tree, whatever is done with equal scores, exactly if the cut keeps parents. -/
theorem encodes_tree_iff (h : ShapedRun run topk) (n numDraftToken : Nat) :
    (∀ topScores, ChoosesLargest topScores → ∀ sel, draftForward run topk topScores n numDraftToken = .ok sel →
      EncodesTree run topk n sel) ↔ CutKeepsParents run topk n (numDraftToken - 1) := by
  cases n with
  | zero =>
    refine ⟨fun _ s parent hs => absurd hs (Nat.not_lt_zero s), fun _ topScores _ sel hsel => ?_⟩
    cases hsel
  | succ m =>
    by_cases hfails : numDraftToken = 0 ∨ (scoreList run topk (m + 1)).length < numDraftToken - 1
    · refine ⟨fun _ s parent hs _ _ hcut => ?_, fun _ topScores _ sel hsel => ?_⟩
      · have hall : (scoringAtLeast (scoreAt run topk (m + 1)) (scoreList run topk (m + 1)).length
            (scoreAt run topk (m + 1) s)).length ≤ (scoreList run topk (m + 1)).length :=
          (List.length_filter_le _ _).trans_eq List.length_range
        obtain ⟨habove, hatLeast⟩ := hcut
        omega
      · rw [draftForward_error topScores hfails] at hsel
        cases hsel
    · obtain ⟨hpos, hk⟩ := not_or.mp hfails
      have hk := Nat.not_lt.mp hk
      have hiff := closed_iff (k := numDraftToken - 1) fun s parent hs hp => parent_before h (m := m) hs hp
      constructor
      · intro hall s parent hs hparent heq
        refine hiff.mp (fun chosen hlargest s hs parent hparent => ?_) s parent hs hparent heq
        have htree := hall _ (choosing_chooses hlargest) _ (draftForward_eq _ hpos hk)
        rw [choosing_run] at htree
        exact List.mem_mergeSort.mp (htree.closed s (List.mem_mergeSort.mpr hs) parent hparent).1
      · intro hcut topScores hchooses sel hsel
        have hlargest := hchooses.list hk
        rw [draftForward_eq topScores hpos hk] at hsel
        obtain rfl := Except.ok.inj hsel
        exact encodesTree_of_closed h hlargest (hiff.mpr hcut _ hlargest)

def tiedChildren : DraftOutput Unit := ⟨[[1, 0], [1 / 2, 1 / 2]], [[7, 8], [7, 8]], [(), ()]⟩

/-- Two beams of two tokens each; the first child of the first token is sure. -/
def tiedRun : DraftRun Unit where
  first := ⟨[[1 / 2, 1 / 4]], [[5, 6]], [()]⟩
  forward _ _ _ := tiedChildren
  fastTopk _ := firstLargest 0

theorem tiedChildren_shaped : ShapedOutput 2 2 tiedChildren :=
  ⟨rfl, by decide, rfl, by decide, rfl, by decide +kernel⟩

theorem tiedRun_shaped : ShapedRun tiedRun 2 where
  topk_pos := by decide
  first := ⟨rfl, by decide, rfl, by decide, rfl, by decide +kernel⟩
  forward _ _ _ _ _ := tiedChildren_shaped
  fastTopk _ := firstLargest_chooses 0

theorem encodes_tree_iff_tied :
    (∀ topScores, ChoosesLargest topScores → ∀ sel, draftForward tiedRun 2 topScores 2 2 = .ok sel →
      EncodesTree tiedRun 2 2 sel) ↔ CutKeepsParents tiedRun 2 2 1 :=
  encodes_tree_iff tiedRun_shaped 2 2

theorem tiedRun_scores : scoreList tiedRun 2 2 = [1 / 2, 1 / 4, 1 / 2, 0, 1 / 8, 1 / 8] := by decide +kernel

/-- Where one token is selected it may be the child without its parent. -/
theorem tied_child_selected : ¬ ∀ topScores, ChoosesLargest topScores → ∀ sel,
    draftForward tiedRun 2 topScores 2 2 = .ok sel → EncodesTree tiedRun 2 2 sel := by
  intro hall
  have hlargest : Largest (fun i => (scoreList tiedRun 2 2).getD i 0) (scoreList tiedRun 2 2).length 1 [2] := by
    rw [tiedRun_scores]
    refine ⟨by decide, rfl, by decide, ?_⟩
    decide +kernel
  have htree := hall _ (choosing_chooses hlargest) _ (draftForward_eq _ (by decide) (by rw [tiedRun_scores]; decide))
  have hparent : parentOf 2 (parentsList tiedRun 2 1) 2 = some 0 := by decide +kernel
  have hmem := htree.closed 2 (List.mem_mergeSort.mpr (by rw [choosing_run]; decide)) 0 hparent
  have hmem := List.mem_mergeSort.mp hmem.1
  rw [choosing_run] at hmem
  exact absurd hmem (by decide)

end Draft

end QCFuse.Guarantees
