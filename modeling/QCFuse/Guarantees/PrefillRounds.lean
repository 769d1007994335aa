import QCFuse.Guarantees.BatchCoordinates
import QCFuse.Guarantees.RadixPaths

/-!
# The rounds of a chunked prefill

One request from its admission to its last chunk. Between two rounds the cache takes over what is
computed, while other requests use the tree; the budgets of each round are whatever they are.
-/

set_option autoImplicit false

namespace QCFuse.Guarantees

open QCFuse.Library QCFuse.Source

/-- What a request is prefilled with in one round. -/
structure Round where
  prefixLen : Nat
  extendInputLen : Int
  fillIds : List Nat
  deriving DecidableEq

/-- The tokens a round computes. -/
def Round.inputIds (r : Round) : List Nat := r.fillIds.drop r.prefixLen

/-- The round of a request in `can_run_list`. -/
def roundOf (req : Req) : Round := ⟨req.prefixIndices.length, req.extendInputLen, req.fillIds⟩

/-- The cache of the scheduler; a `ChunkCache` has its page size only. -/
inductive PrefixCache where
  | chunk (pageSize : Nat) (h : 0 < pageSize)
  | radix (c : RadixCache Nat)

def PrefixCache.pageSize : PrefixCache → Nat
  | .chunk pageSize _ => pageSize
  | .radix c => c.pageSize

/-- `tree_cache.disable`. -/
def PrefixCache.disable : PrefixCache → Bool
  | .chunk _ _ => true
  | .radix _ => false

theorem PrefixCache.pageSize_pos (cache : PrefixCache) : 0 < cache.pageSize := by
  cases cache with
  | chunk _ h => exact h
  | radix c => exact c.pageSize_pos

inductive PrefillStage where
  | waiting | chunked | prefilled
  deriving DecidableEq

/-- A request, the locks of the others, and the rounds it was in so far. -/
structure PrefillRun where
  cache : PrefixCache
  others : List Nat
  req : Req
  lastNode : Nat
  stage : PrefillStage
  rounds : List Round

namespace PrefillRun

/-- The input of the request. -/
def input (s : PrefillRun) : List Nat := s.req.originInputIds ++ s.req.outputIds

/-- The request once it is in `can_run_list`, the last there. -/
def join (s : PrefillRun) (canRunList : List Req) (stage : PrefillStage) : PrefillRun :=
  match canRunList.getLast? with
  | none => s
  | some req => { s with req, stage, rounds := s.rounds ++ [roundOf req] }

end PrefillRun

/-- The key `init_next_round_input` matches. -/
def matchKey (req : Req) : RadixKey Nat :=
  let fillIds := req.originInputIds ++ req.outputIds
  let maxPrefixLen := match req.logprobStartLen with
    | none => fillIds.length - 1
    | some logprobStartLen => min (fillIds.length - 1) logprobStartLen
  ⟨fillIds.take maxPrefixLen, req.extraKey⟩

/-- The tree as the scheduling policy sees it. -/
def PrefixCache.tree (cache : PrefixCache) (now : Int) (lockSize : Nat) : TreeCache :=
  match cache with
  | .chunk _ _ => { disable := true, matchPrefix := fun _ _ => [], lockSize := fun _ => 0 }
  | .radix c =>
    { disable := false
      matchPrefix := fun tokenIds extraKey =>
        (c.matchPrefix now ⟨tokenIds, extraKey⟩).1.deviceIndices.map Int.toNat
      lockSize := fun _ => lockSize }

/-- The cache after the match, and the node it ends at. -/
def PrefixCache.matched (cache : PrefixCache) (now : Int) (req : Req) : PrefixCache × Nat :=
  match cache with
  | .chunk pageSize h => (.chunk pageSize h, 0)
  | .radix c =>
    let (result, c) := c.matchPrefix now (matchKey req)
    (.radix c, result.lastDeviceNode)

def PrefixCache.incLockRef (cache : PrefixCache) (node : Nat) : PrefixCache :=
  match cache with
  | .chunk pageSize h => .chunk pageSize h
  | .radix c => .radix (c.incLockRef node)

/-- The request as `cache_unfinished_req` sees it, with the row `kv`. -/
def cachedReq (s : PrefillRun) (kv : Nat → Int) : CachedReq where
  originInputIds := s.req.originInputIds
  outputIds := s.req.outputIds
  fillIds := s.req.fillIds
  extraKey := s.req.extraKey
  blendStyle := s.req.blend.map (·.blendStyle)
  prefixIndices := s.req.prefixIndices.map Int.ofNat
  lastNode := s.lastNode
  lastMatchedPrefixLen := 0
  row := (List.range s.req.fillIds.length).map kv

/-- `cache_unfinished_req` of either cache. -/
def PrefillRun.cacheUnfinished (s : PrefillRun) (kv : Nat → Int) (now later : Int) : PrefillRun :=
  match s.cache with
  | .chunk _ _ =>
    { s with req := { s.req with prefixIndices := (cachedReq s kv).row.map Int.toNat } }
  | .radix c =>
    let (req, _, c) := c.cacheUnfinishedReq now later (cachedReq s kv)
    { s with
      cache := .radix c
      req := { s.req with prefixIndices := req.prefixIndices.map Int.toNat }
      lastNode := req.lastNode }

inductive RoundOp where
  /-- The request's turn in the waiting queue. -/
  | addOneReq (adder : PrefillAdder) (now : Int) (lockSize : Nat)
  /-- The next round of the chunked request. -/
  | addChunkedReq (adder : PrefillAdder) (kv : Nat → Int) (now later : Int)
  /-- Another request uses the tree. -/
  | other (op : RadixOp Nat)

/-- `self.chunked_req` is the request where the call makes it so; other requests of the batch are
not looked at for that. -/
def roundMachine : Machine PrefillRun RoundOp where
  step
    | .addOneReq adder now lockSize, s =>
      if s.stage ≠ .waiting then none
      else
        let tree := s.cache.tree now lockSize
        let (cache, lastNode) := s.cache.matched now s.req
        let adder := { adder with pageSize := s.cache.pageSize, newChunkedReq := none }
        let (after, _) := adder.addOneReq tree (initNextRoundInput (some tree) s.req)
        if after.canRunList = adder.canRunList then some { s with cache }
        else
          let stage := if after.newChunkedReq.isSome then .chunked else .prefilled
          some ({ s with cache := cache.incLockRef lastNode, lastNode }.join after.canRunList stage)
    | .addChunkedReq adder kv now later, s =>
      if s.stage ≠ .chunked then none
      else
        let s := s.cacheUnfinished kv now later
        let adder := { adder with pageSize := s.cache.pageSize }
        match adder.addChunkedReq (initNextRoundInput none s.req) with
        | .error _ => none
        | .ok (after, chunked) =>
          some (s.join after.canRunList (if chunked.isSome then .chunked else .prefilled))
    | .other op, s =>
      match s.cache with
      | .chunk _ _ => none
      | .radix c => (radixMachine.step op ⟨c, s.others⟩).map fun r =>
          { s with cache := .radix r.cache, others := r.holds }

/-- The tokens that `add_chunked_req` takes at most. -/
def remTokens (adder : PrefillAdder) (remChunkTokens : Int) : Int :=
  min remChunkTokens
    (if 0 ≤ adder.remTotalTokens then adder.remTotalTokens.floor else adder.remTotalTokens.ceil)

/-- The others use the tree as they should. -/
def OthersBalanced (s : PrefillRun) : RoundOp → Prop
  | .other op =>
    match s.cache with
    | .chunk _ _ => True
    | .radix c => BalancedUse ⟨c, s.others⟩ op
  | _ => True

/-- There is a token to prefill and room for one: the chunk budget of a request that ignores EOS
without a tree is not negative, and a later chunk has a budget of a token and is in the cache. -/
def RoomForOne (s : PrefillRun) (op : RoundOp) : Prop :=
  OthersBalanced s op ∧
  match op with
  | .addOneReq adder _ _ => s.input ≠ [] ∧ adder.truncationAlignSize.all (0 < ·) ∧
      (s.req.ignoreEos = true → s.cache.disable = true → adder.remChunkTokens.all (0 ≤ ·))
  | .addChunkedReq adder _ _ _ => adder.remChunkTokens.all (1 ≤ remTokens adder ·) ∧
      (s.req.blend.isSome = true → s.cache.disable = true)
  | .other _ => True

/-- Every round extends by a token at least and ends where its tokens do, the next one starts
there, and the rounds of a request that is prefilled have its input once, from the cached prefix
on. -/
structure Tiled (s : PrefillRun) : Prop where
  positive : ∀ r ∈ s.rounds, 1 ≤ r.extendInputLen
  fills : ∀ r ∈ s.rounds, (r.prefixLen + r.extendInputLen).toNat ≤ s.input.length ∧
    r.fillIds = s.input.take (r.prefixLen + r.extendInputLen).toNat
  consecutive : s.rounds.IsChain fun r r' => (r'.prefixLen : Int) = r.prefixLen + r.extendInputLen
  covers : s.stage = .prefilled → ∃ first, s.rounds.head? = some first ∧
    s.rounds.flatMap Round.inputIds = s.input.drop first.prefixLen

/-! ## What a call adds -/

/-- The request cut to `n` tokens behind its prefix. -/
def cutTo (req : Req) (n : Int) : Req :=
  { req with extendInputLen := n, fillIds := pyTake req.fillIds (req.prefixIndices.length + n) }

theorem truncLen_pos {adder : PrefillAdder} {remChunkTokens n : Int}
    (halign : ∀ align, adder.truncationAlignSize = some align → 0 < align)
    (h : adder.truncLen remChunkTokens = some n) : 1 ≤ n := by
  simp only [PrefillAdder.truncLen] at h
  split at h
  next => cases h
  next hpos =>
    cases hsize : adder.truncationAlignSize with
    | none =>
      rw [hsize] at h
      cases h
      omega
    | some align =>
      have hsome := halign align hsize
      rw [hsize] at h
      simp only at h
      split at h
      next => cases h
      next hlong =>
        cases h
        have hdiv : 1 ≤ remChunkTokens / (adder.pageSize : Int) * adder.pageSize / align :=
          (Int.le_ediv_iff_mul_le hsome).mpr (by omega)
        nlinarith

/-- A request is left out, taken whole, or cut to a part that is not empty. -/
theorem addOneReq_cases (tree : TreeCache) (adder : PrefillAdder) (req : Req) (hpage : 0 < adder.pageSize)
    (halign : ∀ align, adder.truncationAlignSize = some align → 0 < align)
    (hdisabled : tree.disable = true → req.prefixIndices = [])
    (hroom : req.ignoreEos = true → tree.disable = true →
      ∀ rem, adder.remChunkTokens = some rem → 0 ≤ rem) :
    (adder.addOneReq tree req).1.canRunList = adder.canRunList ∨
    ((adder.addOneReq tree req).1.canRunList = adder.canRunList ++ [req] ∧
      (adder.addOneReq tree req).1.newChunkedReq = adder.newChunkedReq) ∨
    ∃ n, 1 ≤ n ∧ n < req.extendInputLen ∧
      (adder.addOneReq tree req).1.canRunList = adder.canRunList ++ [cutTo req n] ∧
      (adder.addOneReq tree req).1.newChunkedReq = some (cutTo req n) := by
  unfold PrefillAdder.addOneReq
  split
  next hignore =>
    rw [Bool.and_eq_true] at hignore
    have hpre := hdisabled hignore.2
    have hrem := hroom hignore.1 hignore.2
    simp only [PrefillAdder.addOneReqIgnoreEos]
    split_ifs
    · exact .inl rfl
    · split
      next => exact .inr (.inl ⟨rfl, rfl⟩)
      next truncLen hsome =>
        have hnonneg := hrem truncLen hsome
        split_ifs with hwhole hzero
        · exact .inr (.inl ⟨rfl, rfl⟩)
        · exact .inl rfl
        · have hcut : cutTo req truncLen =
              { req with extendInputLen := truncLen, fillIds := pyTake req.fillIds truncLen } := by
            rw [cutTo, hpre, List.length_nil, Nat.cast_zero, zero_add]
          refine .inr (.inr ⟨truncLen, by omega, by omega, ?_, ?_⟩)
          · rw [hcut]
            rfl
          · rw [hcut]
    · exact .inl rfl
  next =>
    simp only
    split_ifs
    · exact .inl rfl
    · exact .inl rfl
    · exact .inl rfl
    · split
      next => exact .inr (.inl ⟨rfl, rfl⟩)
      next remChunkTokens hsome =>
        split_ifs with hfits
        · exact .inr (.inl ⟨rfl, rfl⟩)
        · split
          next => exact .inl rfl
          next truncLen htrunc =>
            exact .inr (.inr ⟨truncLen, truncLen_pos halign htrunc,
              truncLen_lt hpage (not_le.mp hfits) htrunc, rfl, rfl⟩)

theorem addChunkedReq_cases {adder after : PrefillAdder} {req : Req} {chunked : Option Req}
    (h : adder.addChunkedReq req = .ok (after, chunked)) :
    ∃ rem, adder.remChunkTokens = some rem ∧
      after.canRunList = adder.canRunList ++ [cutTo req (min req.extendInputLen (remTokens adder rem))] ∧
      (chunked.isSome = true ↔ remTokens adder rem < req.extendInputLen) := by
  unfold PrefillAdder.addChunkedReq at h
  split at h
  next => cases h
  next rem hsome =>
    cases h
    refine ⟨rem, hsome, rfl, ?_⟩
    show (if decide (remTokens adder rem < req.extendInputLen) = true then some _ else none).isSome = true ↔ _
    by_cases hlt : remTokens adder rem < req.extendInputLen
    · rw [if_pos (decide_eq_true hlt)]
      exact iff_of_true rfl hlt
    · rw [if_neg (fun h => hlt (of_decide_eq_true h))]
      exact iff_of_false Bool.false_ne_true hlt

/-! ## Rounds that tile -/

/-- Where a round ends. -/
def Round.stop (r : Round) : Nat := (r.prefixLen + r.extendInputLen).toNat

/-- A round computes a token at least, and its tokens are those of the input. -/
structure RoundFits (input : List Nat) (r : Round) : Prop where
  positive : 1 ≤ r.extendInputLen
  within : r.stop ≤ input.length
  fills : r.fillIds = input.take r.stop

/-- Rounds that go on from each other, from `start` to `stop`. -/
inductive Covers (input : List Nat) : Nat → List Round → Nat → Prop where
  | first (r : Round) : RoundFits input r → Covers input r.prefixLen [r] r.stop
  | next {start : Nat} {rounds : List Round} (r : Round) : Covers input start rounds r.prefixLen →
      RoundFits input r → Covers input start (rounds ++ [r]) r.stop

section Covering

variable {input : List Nat} {start stop : Nat} {rounds : List Round}

theorem RoundFits.lt_stop {r : Round} (h : RoundFits input r) : r.prefixLen < r.stop := by
  have := h.positive
  rw [Round.stop]
  omega

theorem RoundFits.stop_eq {r : Round} (h : RoundFits input r) :
    (r.stop : Int) = r.prefixLen + r.extendInputLen := by
  have := h.positive
  rw [Round.stop]
  omega

theorem Covers.fits (h : Covers input start rounds stop) : ∀ r ∈ rounds, RoundFits input r := by
  induction h with
  | first r hr =>
    intro q hq
    rwa [List.mem_singleton.mp hq]
  | next r _ hr ih =>
    intro q hq
    rcases List.mem_append.mp hq with hq | hq
    · exact ih q hq
    · rwa [List.mem_singleton.mp hq]

theorem Covers.bounds (h : Covers input start rounds stop) : start < stop ∧ stop ≤ input.length := by
  induction h with
  | first r hr => exact ⟨hr.lt_stop, hr.within⟩
  | next r _ hr ih => exact ⟨ih.1.trans hr.lt_stop, hr.within⟩

theorem Covers.head (h : Covers input start rounds stop) :
    ∃ first, rounds.head? = some first ∧ first.prefixLen = start := by
  induction h with
  | first r hr => exact ⟨r, rfl, rfl⟩
  | next r _ hr ih =>
    obtain ⟨first, hhead, heq⟩ := ih
    exact ⟨first, by rw [List.head?_append, hhead]; rfl, heq⟩

theorem Covers.last (h : Covers input start rounds stop) : ∀ r ∈ rounds.getLast?, r.stop = stop := by
  induction h with
  | first r hr =>
    intro q hq
    cases hq
    rfl
  | next r _ hr ih =>
    intro q hq
    rw [List.getLast?_concat] at hq
    cases hq
    rfl

theorem Covers.consecutive (h : Covers input start rounds stop) :
    rounds.IsChain fun r r' => (r'.prefixLen : Int) = r.prefixLen + r.extendInputLen := by
  induction h with
  | first r hr => exact List.isChain_singleton r
  | @next start rounds r hcovers hr ih =>
    refine List.isChain_append.mpr ⟨ih, List.isChain_singleton r, fun q hq r' hr' => ?_⟩
    cases hr'
    rw [← (hcovers.fits q (List.mem_of_getLast? hq)).stop_eq, hcovers.last q hq]

/-- The rounds compute the input from where they start to where they end. -/
theorem Covers.tokens (h : Covers input start rounds stop) :
    rounds.flatMap Round.inputIds = (input.take stop).drop start := by
  induction h with
  | first r hr => rw [List.flatMap_singleton, Round.inputIds, hr.fills]
  | @next start rounds r hcovers hr ih =>
    have hlt := hr.lt_stop
    obtain ⟨hstart, hwithin⟩ := hcovers.bounds
    have hsplit : input.take r.stop = input.take r.prefixLen ++ (input.take r.stop).drop r.prefixLen := by
      conv_lhs => rw [← List.take_append_drop r.prefixLen (input.take r.stop)]
      rw [List.take_take, Nat.min_eq_left hlt.le]
    rw [List.flatMap_append, List.flatMap_singleton, ih, Round.inputIds, hr.fills]
    conv_rhs => rw [hsplit]
    rw [List.drop_append_of_le_length (by rw [List.length_take]; omega)]

end Covering

/-! ## What a run keeps -/

/-- The locks on the tree: those of the others, and that of the request once it is admitted. -/
def PrefillRun.holds (s : PrefillRun) : List Nat :=
  if s.stage = .waiting then s.others else s.lastNode :: s.others

structure RoundsInv (s : PrefillRun) : Prop where
  tree : ∀ c, s.cache = .radix c → RadixInv s.holds c
  waiting : s.stage = .waiting → s.rounds = []
  admitted : s.stage ≠ .waiting → s.req.fillIds = s.input.take s.req.fillIds.length ∧
    ∃ start, Covers s.input start s.rounds s.req.fillIds.length
  more : s.stage = .chunked → s.req.fillIds.length < s.input.length
  whole : s.stage = .prefilled → s.req.fillIds = s.input

theorem RoundsInv.tiled {s : PrefillRun} (h : RoundsInv s) : Tiled s := by
  by_cases hstage : s.stage = .waiting
  · have hnil := h.waiting hstage
    refine ⟨?_, ?_, ?_, fun hpre => ?_⟩
    · rw [hnil]
      exact fun r hr => by cases hr
    · rw [hnil]
      exact fun r hr => by cases hr
    · rw [hnil]
      exact List.isChain_nil
    · rw [hstage] at hpre
      cases hpre
  · obtain ⟨_, start, hcovers⟩ := h.admitted hstage
    refine ⟨fun r hr => (hcovers.fits r hr).positive,
      fun r hr => ⟨(hcovers.fits r hr).within, (hcovers.fits r hr).fills⟩, hcovers.consecutive,
      fun hpre => ?_⟩
    obtain ⟨first, hhead, heq⟩ := hcovers.head
    refine ⟨first, hhead, ?_⟩
    rw [hcovers.tokens, heq, h.whole hpre, List.take_length]

/-- A request at the start of a round, with its input behind the prefix still to come. -/
structure AtStart (input : List Nat) (req : Req) : Prop where
  input_eq : req.originInputIds ++ req.outputIds = input
  fills : req.fillIds = input
  extend : req.extendInputLen = (input.length : Int) - req.prefixIndices.length
  short : req.prefixIndices.length < input.length

theorem AtStart.cut {input : List Nat} {req : Req} (h : AtStart input req) {n : Int} (hpos : 1 ≤ n)
    (hle : n ≤ req.extendInputLen) :
    RoundFits input (roundOf (cutTo req n)) ∧
      (cutTo req n).fillIds.length = (roundOf (cutTo req n)).stop := by
  have hext := h.extend
  have hstop : (roundOf (cutTo req n)).stop = (req.prefixIndices.length + n).toNat := rfl
  have hfill : (cutTo req n).fillIds = input.take (req.prefixIndices.length + n).toNat := by
    show pyTake req.fillIds _ = _
    rw [pyTake, if_neg (by omega), h.fills]
  refine ⟨⟨hpos, ?_, ?_⟩, ?_⟩
  · rw [hstop]
    omega
  · rw [hstop]
    exact hfill
  · rw [hfill, hstop, List.length_take]
    omega

theorem AtStart.cut_more {input : List Nat} {req : Req} (h : AtStart input req) {n : Int} (hpos : 1 ≤ n)
    (hlt : n < req.extendInputLen) : (roundOf (cutTo req n)).stop < input.length := by
  have hext := h.extend
  show (req.prefixIndices.length + n).toNat < _
  omega

theorem AtStart.cut_all {input : List Nat} {req : Req} (h : AtStart input req) :
    (cutTo req req.extendInputLen).fillIds = input := by
  have hext := h.extend
  have hshort := h.short
  show pyTake req.fillIds _ = _
  rw [pyTake, if_neg (by omega), h.fills, List.take_of_length_le (by omega)]

theorem AtStart.whole {input : List Nat} {req : Req} (h : AtStart input req) :
    RoundFits input (roundOf req) ∧ req.fillIds.length = (roundOf req).stop := by
  have hext := h.extend
  have hshort := h.short
  have hstop : (roundOf req).stop = input.length := by
    show (req.prefixIndices.length + req.extendInputLen).toNat = _
    omega
  refine ⟨⟨?_, hstop.le, ?_⟩, ?_⟩
  · show 1 ≤ req.extendInputLen
    omega
  · rw [hstop, List.take_length]
    exact h.fills
  · rw [hstop, h.fills]

/-- One round more keeps the invariant. -/
theorem RoundsInv.joined {t : PrefillRun} {rounds : List Round}
    (htree : ∀ c, t.cache = .radix c → RadixInv (t.lastNode :: t.others) c) (hstage : t.stage ≠ .waiting)
    (hrounds : t.rounds = rounds ++ [roundOf t.req])
    (hbefore : rounds = [] ∨ ∃ start, Covers t.input start rounds t.req.prefixIndices.length)
    (hfits : RoundFits t.input (roundOf t.req)) (hlen : t.req.fillIds.length = (roundOf t.req).stop)
    (hmore : t.stage = .chunked → (roundOf t.req).stop < t.input.length)
    (hwhole : t.stage = .prefilled → t.req.fillIds = t.input) : RoundsInv t where
  tree c hc := by
    rw [PrefillRun.holds, if_neg hstage]
    exact htree c hc
  waiting hwait := absurd hwait hstage
  admitted _ := by
    refine ⟨hlen ▸ hfits.fills, ?_⟩
    rw [hlen, hrounds]
    rcases hbefore with rfl | ⟨start, hcovers⟩
    · exact ⟨_, .first _ hfits⟩
    · exact ⟨start, .next _ hcovers hfits⟩
  more hchunked := hlen ▸ hmore hchunked
  whole := hwhole

theorem join_concat (s : PrefillRun) (list : List Req) (req : Req) (stage : PrefillStage) :
    s.join (list ++ [req]) stage = { s with req, stage, rounds := s.rounds ++ [roundOf req] } := by
  rw [PrefillRun.join, List.getLast?_concat]

/-! ### Admission -/

theorem matchKey_len (req : Req) :
    (matchKey req).len ≤ (req.originInputIds ++ req.outputIds).length - 1 := by
  rw [RadixKey.len, matchKey, List.length_take]
  cases req.logprobStartLen with
  | none => simp
  | some logprobStartLen =>
    simp only
    omega

/-- A match leaves a token to prefill. -/
theorem atStart_admitted {s : PrefillRun} (h : RoundsInv s) (hinput : s.input ≠ []) (now : Int)
    (lockSize : Nat) : AtStart s.input (initNextRoundInput (some (s.cache.tree now lockSize)) s.req) := by
  have hpos := List.length_pos_of_ne_nil hinput
  refine ⟨rfl, rfl, rfl, ?_⟩
  cases hcache : s.cache with
  | chunk p hp => exact hpos
  | radix c =>
    have hwithin := (matchPrefix_exact (h.tree c hcache) now (matchKey s.req)).within
    have hkey := matchKey_len s.req
    have hprefixLen : (initNextRoundInput (some ((PrefixCache.radix c).tree now lockSize)) s.req).prefixIndices =
        (c.matchPrefix now (matchKey s.req)).1.deviceIndices.map Int.toNat := rfl
    rw [hprefixLen, List.length_map]
    exact (hwithin.trans hkey).trans_lt (Nat.sub_lt hpos Nat.one_pos)

/-- The tree after the match of a waiting request. -/
theorem matched_inv {s : PrefillRun} (h : RoundsInv s) (hwait : s.stage = .waiting) (now : Int) :
    (∀ c, (s.cache.matched now s.req).1 = .radix c → RadixInv s.others c) ∧
    ∀ c, (s.cache.matched now s.req).1.incLockRef (s.cache.matched now s.req).2 = .radix c →
      RadixInv ((s.cache.matched now s.req).2 :: s.others) c := by
  cases hcache : s.cache with
  | chunk p hp => exact ⟨fun c hc => (by cases hc), fun c hc => (by cases hc)⟩
  | radix c =>
    have htree := h.tree c hcache
    rw [PrefillRun.holds, if_pos hwait] at htree
    refine ⟨fun c' hc => ?_, fun c' hc => ?_⟩
    · cases hc
      exact htree.matchPrefix now _
    · cases hc
      exact (htree.matchPrefix now _).incLockRef (matchPrefix_lastNode htree now _)

theorem RoundsInv.addOneReq {s s' : PrefillRun} {adder : PrefillAdder} {now : Int} {lockSize : Nat}
    (h : RoundsInv s) (hguard : RoomForOne s (.addOneReq adder now lockSize))
    (hstep : roundMachine.step (.addOneReq adder now lockSize) s = some s') : RoundsInv s' := by
  obtain ⟨_, hinput, halign, hroom⟩ := hguard
  simp only [roundMachine] at hstep
  split at hstep
  next => cases hstep
  next hwait =>
    rw [not_not] at hwait
    obtain ⟨hcache, hlocked⟩ := matched_inv h hwait now
    have hstart := atStart_admitted h hinput now lockSize
    have hrounds := h.waiting hwait
    have hdisabled : (s.cache.tree now lockSize).disable = true →
        (initNextRoundInput (some (s.cache.tree now lockSize)) s.req).prefixIndices = [] := by
      intro hdisable
      cases hkind : s.cache with
      | chunk p hp => rfl
      | radix c =>
        rw [hkind] at hdisable
        cases hdisable
    have hchunk : s.req.ignoreEos = true → (s.cache.tree now lockSize).disable = true →
        ∀ rem, adder.remChunkTokens = some rem → 0 ≤ rem := by
      intro hignore hdisable
      cases hkind : s.cache with
      | chunk p hp => exact fun rem hrem => by simpa [hrem] using hroom hignore (by rw [hkind]; rfl)
      | radix c =>
        rw [hkind] at hdisable
        cases hdisable
    have haligned : ∀ align, adder.truncationAlignSize = some align → 0 < align := by
      intro align hsome
      simpa [hsome] using halign
    have hcases := addOneReq_cases (s.cache.tree now lockSize)
      { adder with pageSize := s.cache.pageSize, newChunkedReq := none }
      (initNextRoundInput (some (s.cache.tree now lockSize)) s.req)
      s.cache.pageSize_pos haligned hdisabled hchunk
    split at hstep
    next =>
      cases hstep
      exact {
        tree := fun c hc => by
          rw [PrefillRun.holds, if_pos hwait]
          exact hcache c hc
        waiting := fun _ => hrounds
        admitted := fun hne => absurd hwait hne
        more := fun hchunked => by
          rw [hwait] at hchunked
          cases hchunked
        whole := fun hpre => by
          rw [hwait] at hpre
          cases hpre }
    next hadded =>
      rcases hcases with hsame | ⟨hlist, hnone⟩ | ⟨n, hpos, hlt, hlist, hsome⟩
      · exact absurd hsame hadded
      · rw [hlist, hnone, join_concat] at hstep
        cases hstep
        exact .joined hlocked (fun hw => by cases hw) rfl (.inl hrounds) hstart.whole.1
          hstart.whole.2 (fun hchunked => by cases hchunked) fun _ => rfl
      · rw [hlist, hsome, join_concat] at hstep
        cases hstep
        obtain ⟨hfits, hlen⟩ := hstart.cut hpos hlt.le
        exact .joined hlocked (fun hw => by cases hw) rfl (.inl hrounds) hfits hlen
          (fun _ => hstart.cut_more hpos hlt) fun hpre => by cases hpre

/-! ### Later rounds -/

/-- Between two rounds all that is computed becomes the prefix. -/
theorem cacheUnfinished_spec {s : PrefillRun} (h : RoundsInv s) (hchunked : s.stage = .chunked)
    (hcached : s.req.blend.isSome = true → s.cache.disable = true) (kv : Nat → Int)
    (now later : Int) :
    (s.cacheUnfinished kv now later).req.prefixIndices.length = s.req.fillIds.length ∧
    (∀ c, (s.cacheUnfinished kv now later).cache = .radix c →
      RadixInv ((s.cacheUnfinished kv now later).lastNode :: s.others) c) ∧
    (s.cacheUnfinished kv now later).req =
      { s.req with prefixIndices := (s.cacheUnfinished kv now later).req.prefixIndices } ∧
    (s.cacheUnfinished kv now later).rounds = s.rounds ∧
    (s.cacheUnfinished kv now later).others = s.others := by
  have hrow : (cachedReq s kv).row.length = s.req.fillIds.length := by
    rw [cachedReq, List.length_map, List.length_range]
  rw [PrefillRun.cacheUnfinished]
  cases hcache : s.cache with
  | chunk p hp =>
    refine ⟨?_, fun c hc => ?_, rfl, rfl, rfl⟩
    · rw [← hrow]
      exact List.length_map _
    · cases hc
  | radix c =>
    have htree := h.tree c hcache
    rw [PrefillRun.holds, if_neg (by rw [hchunked]; exact PrefillStage.noConfusion)] at htree
    have hplain : (cachedReq s kv).blendStyle = none := by
      cases hblend : s.req.blend with
      | none => rw [cachedReq, hblend]; rfl
      | some blend =>
        have hdisable := hcached (by rw [hblend]; rfl)
        rw [hcache] at hdisable
        cases hdisable
    refine ⟨?_, fun c' hc => ?_, rfl, rfl, rfl⟩
    · exact (List.length_map _).trans (cacheUnfinishedReq_prefixLen htree now later hplain hrow.ge)
    · cases hc
      exact htree.cacheUnfinishedReq now later hplain hrow.ge

theorem RoundsInv.addChunkedReq {s s' : PrefillRun} {adder : PrefillAdder} {kv : Nat → Int}
    {now later : Int} (h : RoundsInv s) (hguard : RoomForOne s (.addChunkedReq adder kv now later))
    (hstep : roundMachine.step (.addChunkedReq adder kv now later) s = some s') : RoundsInv s' := by
  obtain ⟨_, hroom, hcached⟩ := hguard
  simp only [roundMachine] at hstep
  split at hstep
  next => cases hstep
  next hstage =>
    rw [not_not] at hstage
    obtain ⟨hprefixLen, htree, hreq, hrounds, hothers⟩ := cacheUnfinished_spec h hstage hcached kv now later
    obtain ⟨hfill, start, hcovers⟩ := h.admitted (by rw [hstage]; exact PrefillStage.noConfusion)
    have hmore := h.more hstage
    generalize s.cacheUnfinished kv now later = t at hstep hprefixLen htree hreq hrounds hothers
    have hinput : t.input = s.input := by
      rw [PrefillRun.input, hreq]
      rfl
    have hstart : AtStart t.input (initNextRoundInput none t.req) := by
      refine ⟨rfl, rfl, rfl, ?_⟩
      rw [hinput]
      exact hprefixLen.trans_lt hmore
    have hbefore : ∃ start, Covers t.input start t.rounds
        (initNextRoundInput none t.req).prefixIndices.length := by
      refine ⟨start, ?_⟩
      rw [hinput, hrounds]
      exact hprefixLen ▸ hcovers
    have hext : 1 ≤ (initNextRoundInput none t.req).extendInputLen := by
      have := hstart.extend
      have := hstart.short
      omega
    split at hstep
    next => cases hstep
    next after chunked hadd =>
      obtain ⟨rem, hrem, hlist, hchunked⟩ := addChunkedReq_cases hadd
      have hone : 1 ≤ remTokens adder rem := by
        rw [show adder.remChunkTokens = some rem from hrem] at hroom
        simpa using hroom
      have hrem' : 1 ≤ remTokens { adder with pageSize := t.cache.pageSize } rem := hone
      obtain ⟨hfits, hlen⟩ := hstart.cut (le_min hext hrem') (min_le_left _ _)
      rw [hlist, join_concat] at hstep
      cases hstep
      refine .joined (fun c hc => hothers.symm ▸ htree c hc) ?_ rfl (.inr hbefore) hfits hlen
        (fun hc => ?_) fun hp => ?_
      · show (if chunked.isSome = true then PrefillStage.chunked else .prefilled) ≠ .waiting
        split <;> exact PrefillStage.noConfusion
      · refine hstart.cut_more (le_min hext hrem') ?_
        refine (min_le_right _ _).trans_lt (hchunked.mp ?_)
        by_contra hnot
        rw [show (if chunked.isSome = true then PrefillStage.chunked else .prefilled) = _ from if_neg hnot] at hc
        cases hc
      · have hle : ¬ chunked.isSome = true := by
          intro hsome
          rw [show (if chunked.isSome = true then PrefillStage.chunked else .prefilled) = _ from if_pos hsome] at hp
          cases hp
        rw [hchunked, not_lt] at hle
        show (cutTo _ (min _ _)).fillIds = _
        rw [min_eq_left hle]
        exact hstart.cut_all

theorem RoundsInv.other {s s' : PrefillRun} {op : RadixOp Nat} (h : RoundsInv s)
    (hguard : OthersBalanced s (.other op)) (hstep : roundMachine.step (.other op) s = some s') :
    RoundsInv s' := by
  simp only [roundMachine] at hstep
  split at hstep
  next => cases hstep
  next c hcache =>
    obtain ⟨r, hr, rfl⟩ := Option.map_eq_some_iff.mp hstep
    rw [OthersBalanced, hcache] at hguard
    have htree := h.tree c hcache
    refine ⟨fun c' hc => ?_, h.waiting, h.admitted, h.more, h.whole⟩
    cases hc
    show RadixInv (if s.stage = .waiting then r.holds else s.lastNode :: r.holds) r.cache
    rw [PrefillRun.holds] at htree
    split
    next hwait =>
      rw [if_pos hwait] at htree
      exact htree.others [] hguard hr
    next hwait =>
      rw [if_neg hwait] at htree
      exact htree.others [s.lastNode] hguard hr

theorem roundMachine_step {s s' : PrefillRun} {op : RoundOp} (h : RoundsInv s) (hguard : RoomForOne s op)
    (hstep : roundMachine.step op s = some s') : RoundsInv s' := by
  cases op with
  | addOneReq adder now lockSize => exact h.addOneReq hguard hstep
  | addChunkedReq adder kv now later => exact h.addChunkedReq hguard hstep
  | other op => exact h.other hguard.1 hstep

/-- A request in front of an empty cache. -/
structure PrefillRun.Fresh (s : PrefillRun) : Prop where
  waiting : s.stage = .waiting
  rounds : s.rounds = []
  others : s.others = []
  tree : ∀ c, s.cache = .radix c → ∃ pageSize h policy now, c = RadixCache.reset pageSize h policy now

theorem PrefillRun.Fresh.inv {s : PrefillRun} (h : s.Fresh) : RoundsInv s where
  tree c hc := by
    obtain ⟨pageSize, hpage, policy, now, rfl⟩ := h.tree c hc
    rw [PrefillRun.holds, if_pos h.waiting, h.others]
    exact radixInv_reset pageSize hpage policy now
  waiting _ := h.rounds
  admitted hne := absurd h.waiting hne
  more hchunked := by
    rw [h.waiting] at hchunked
    cases hchunked
  whole hpre := by
    rw [h.waiting] at hpre
    cases hpre

theorem rounds_tile {s : PrefillRun} (h : roundMachine.Reach RoomForOne PrefillRun.Fresh s) : Tiled s :=
  (h.invariant (fun _ hs => hs.inv) fun _ _ _ hs hguard hstep => roundMachine_step hs hguard hstep).tiled

/-- A prompt of five tokens, in pages of two. -/
def fiveTokens : PrefillRun where
  cache := .radix (.reset 2 Nat.two_pos .lru 0)
  others := []
  req := {
    originInputIds := [1, 2, 3, 4, 5], outputIds := [], fillIds := [], prefixIndices := [],
    extendInputLen := 0, maxNewTokens := 1, ignoreEos := false, extraKey := none,
    logprobStartLen := none, blend := none }
  lastNode := 0
  stage := .waiting
  rounds := []

theorem fiveTokens_fresh : fiveTokens.Fresh where
  waiting := rfl
  rounds := rfl
  others := rfl
  tree c hc := ⟨2, by decide, .lru, 0, by cases hc; rfl⟩

/-- Room for a chunk of four tokens, less what running requests reserve. -/
def fourTokenAdder (reserved : Rat) : PrefillAdder where
  pageSize := 2
  clipMaxNewTokens := 4096
  truncationAlignSize := none
  newTokenRatio := 1
  running := []
  availableAndEvictable := 100
  remInputTokens := 100
  remChunkTokens := some 4
  remTotalTokenOffset := reserved
  curRemTokenOffset := 0
  reqStates := none
  canRunList := []
  newChunkedReq := none

/-- The first chunk with nothing reserved, the next one with `reserved` tokens. -/
def twoRounds (reserved : Rat) : List RoundOp :=
  [.addOneReq (fourTokenAdder 0) 0 0, .addChunkedReq (fourTokenAdder reserved) (fun i => i) 10 20]

instance (s : PrefillRun) (op : RoundOp) : Decidable (OthersBalanced s op) := by
  unfold OthersBalanced
  split
  · split <;> infer_instance
  · infer_instance

instance (s : PrefillRun) (op : RoundOp) : Decidable (RoomForOne s op) := by
  unfold RoomForOne
  cases op <;> infer_instance

theorem twoRounds_run : (roundMachine.guardedRun RoomForOne (twoRounds 0) fiveTokens).isSome = true := by
  decide +kernel

theorem rounds_tile_fiveTokens : ∃ s, roundMachine.Reach RoomForOne PrefillRun.Fresh s ∧ Tiled s ∧
    s.stage = .prefilled := by
  have hreach := (Machine.reach_guardedRun twoRounds_run).weaken (fun _ _ h => h)
    (fun _ (hs : _ = fiveTokens) => hs ▸ fiveTokens_fresh)
  exact ⟨_, hreach, rounds_tile hreach, by decide +kernel⟩

/-- Running requests reserve a token more than there is: the second chunk takes one back. -/
theorem reservedRounds_run :
    (roundMachine.guardedRun OthersBalanced (twoRounds 101) fiveTokens).isSome = true := by
  decide +kernel

theorem reservedRounds_not_tiled :
    ∃ s, roundMachine.Reach OthersBalanced PrefillRun.Fresh s ∧ ¬ Tiled s := by
  have hreach := (Machine.reach_guardedRun reservedRounds_run).weaken (fun _ _ h => h)
    (fun _ (hs : _ = fiveTokens) => hs ▸ fiveTokens_fresh)
  refine ⟨_, hreach, fun htiled => ?_⟩
  have hpos := htiled.positive
  revert hpos
  decide +kernel

end QCFuse.Guarantees
