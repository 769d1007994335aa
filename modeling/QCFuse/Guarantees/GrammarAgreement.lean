import Mathlib.Data.List.Basic
import Mathlib.Tactic.NormNum
import QCFuse.Source.GrammarQueue
import QCFuse.Source.Python

/-!
# The ranks agree on the grammar queue

Ranks with the same queue count their ready requests apart and exchange the maxima. They move the
same requests unless a rank times out while the counts differ.
-/

set_option autoImplicit false

namespace QCFuse.Guarantees

open QCFuse.Library QCFuse.Source

variable {Γ : Type} {compile : GrammarKey → Compiled Γ} {grammarTimeout : Rat}

/-- A request as all ranks see it: the wait count is the rank's own. -/
def shared (req : GrammarReq Γ) : GrammarReq Γ := { req with grammarWaitCt := 0 }

/-- Each rank holds these requests; those that are not aborted wait for their futures. -/
structure HoldsQueue (queue : List (GrammarReq Γ)) (ranks : List (GrammarRank Γ × (Nat → Bool))) : Prop where
  same : ∀ p ∈ ranks, p.1.grammarQueue.map shared = queue
  futures : ∀ req ∈ queue, req.finished = false → req.grammar = .future

/-- How many requests at the front are aborted, or compiled within the wait of this rank. -/
def leading : List (GrammarReq Γ) → (Nat → Bool) → Nat
  | [], _ => 0
  | req :: rest, ready => if req.finished || ready 0 then leading rest (fun i => ready (i + 1)) + 1 else 0

/-- The first request that is not ready has now waited too long on this rank. -/
def TimesOut (grammarTimeout : Rat) (rank : GrammarRank Γ) (ready : Nat → Bool) : Prop :=
  ∃ req, rank.grammarQueue[leading rank.grammarQueue ready]? = some req ∧
    ((req.grammarWaitCt + 1 : Nat) : Rat) > grammarTimeout / (3 / 100)

/-- A grammar, or the object for an invalid one. -/
def Usable : Compiled Γ → Prop
  | .object _ | .invalid => True
  | _ => False

/-- Everything that is ready compiles to a grammar or is invalid, and either no rank times out or
all ranks wait for the same request. -/
structure SettlesAlike (compile : GrammarKey → Compiled Γ) (grammarTimeout : Rat)
    (ranks : List (GrammarRank Γ × (Nat → Bool))) : Prop where
  usable : ∀ p ∈ ranks, ∀ req ∈ p.1.grammarQueue.take (leading p.1.grammarQueue p.2), req.finished = false →
    Usable (compile req.grammarKey)
  waits : (∀ p ∈ ranks, ¬TimesOut grammarTimeout p.1 p.2) ∨
    ∀ p ∈ ranks, ∀ p' ∈ ranks, leading p.1.grammarQueue p.2 = leading p'.1.grammarQueue p'.2

/-- No rank raises; all move the same requests with the same outcome, and keep the same ones. -/
def MovesAlike (result : Except GrammarError (List (List (GrammarReq Γ) × GrammarRank Γ))) : Prop :=
  ∃ outs moved left, result = .ok outs ∧
    ∀ out ∈ outs, out.1.map shared = moved ∧ out.2.grammarQueue.map shared = left

/-! ## One rank -/

/-- The request once its future has been taken. -/
def settled (compile : GrammarKey → Compiled Γ) (req : GrammarReq Γ) : GrammarReq Γ :=
  if req.finished then req
  else match compile req.grammarKey with
    | .object grammar => { req with grammar := .object grammar }
    | .invalid => req.setFinishWithAbort ("Invalid grammar request: req.grammar_key=" ++ keyText req.grammarKey)
    | _ => req

def timedOut (req : GrammarReq Γ) : GrammarReq Γ :=
  req.setFinishWithAbort ("Grammar preprocessing timed out for req.grammar_key=" ++ keyText req.grammarKey)

theorem shared_settled (req : GrammarReq Γ) : shared (settled compile req) = settled compile (shared req) := by
  unfold settled
  rw [show (shared req).finished = req.finished from rfl, show (shared req).grammarKey = req.grammarKey from rfl]
  split
  next => rfl
  next => split <;> rfl

theorem settled_of_finished {req : GrammarReq Γ} (h : req.finished = true) : settled compile req = req := by
  rw [settled, if_pos h]

theorem takeResult_ok {req : GrammarReq Γ} (cache : Dict GrammarKey (Compiled Γ)) (hreq : req.finished = false)
    (h : Usable (compile req.grammarKey)) :
    ∃ cache', takeResult compile req cache = .ok (settled compile req, cache') := by
  unfold takeResult settled
  rw [if_neg (by rw [hreq]; simp)]
  cases hkey : compile req.grammarKey with
  | object grammar => exact ⟨_, rfl⟩
  | invalid => exact ⟨_, rfl⟩
  | unsupported | raises _ =>
    rw [hkey] at h
    cases h

theorem takeResult_usable {req : GrammarReq Γ} {cache : Dict GrammarKey (Compiled Γ)}
    {result : GrammarReq Γ × Dict GrammarKey (Compiled Γ)} (h : takeResult compile req cache = .ok result) :
    Usable (compile req.grammarKey) := by
  unfold takeResult at h
  cases hkey : compile req.grammarKey with
  | object grammar => trivial
  | invalid => trivial
  | unsupported | raises _ =>
    rw [hkey] at h
    cases h

/-- The number of timed out requests, as the first loop counts them. -/
def timeouts (grammarTimeout : Rat) : List (GrammarReq Γ) → Nat
  | [] => 0
  | req :: _ => if ((req.grammarWaitCt + 1 : Nat) : Rat) > grammarTimeout / (3 / 100) then 1 else 0

theorem readyLoop_ok (grammarTimeout : Rat) (queue : List (GrammarReq Γ)) (ready : Nat → Bool) (cache : Dict GrammarKey (Compiled Γ))
    (h : ∀ req ∈ queue.take (leading queue ready), req.finished = false → Usable (compile req.grammarKey)) :
    ∃ queue' cache', readyLoop compile grammarTimeout queue ready cache = .ok (queue', leading queue ready,
        timeouts grammarTimeout (queue.drop (leading queue ready)), cache') ∧
      queue'.map shared = ((queue.take (leading queue ready)).map (settled compile) ++
        queue.drop (leading queue ready)).map shared := by
  induction queue generalizing ready cache with
  | nil => exact ⟨[], cache, rfl, rfl⟩
  | cons req rest ih =>
    cases hfinished : req.finished with
    | true =>
      have hlead : leading (req :: rest) ready = leading rest (fun i => ready (i + 1)) + 1 := by
        rw [leading, hfinished, Bool.true_or, if_pos rfl]
      rw [hlead, List.take_succ_cons] at h
      obtain ⟨queue', cache', hrun, hqueue⟩ := ih (fun i => ready (i + 1)) cache
        fun other hother => h other (List.mem_cons_of_mem _ hother)
      refine ⟨req :: queue', cache', ?_, ?_⟩
      · rw [readyLoop, if_pos hfinished, hrun, hlead, List.drop_succ_cons]
        rfl
      · rw [hlead, List.take_succ_cons, List.drop_succ_cons, List.map_cons, hqueue, List.map_cons,
          settled_of_finished hfinished, List.cons_append, List.map_cons]
    | false =>
      cases hready : ready 0 with
      | true =>
        have hlead : leading (req :: rest) ready = leading rest (fun i => ready (i + 1)) + 1 := by
          rw [leading, hready, Bool.or_true, if_pos rfl]
        rw [hlead, List.take_succ_cons] at h
        obtain ⟨cache₁, htake⟩ := takeResult_ok cache hfinished (h req List.mem_cons_self hfinished)
        obtain ⟨queue', cache', hrun, hqueue⟩ := ih (fun i => ready (i + 1)) cache₁
          fun other hother => h other (List.mem_cons_of_mem _ hother)
        refine ⟨settled compile req :: queue', cache', ?_, ?_⟩
        · rw [readyLoop, if_neg (by rw [hfinished]; simp), if_pos hready, htake, hlead, List.drop_succ_cons]
          simp only [bind, Except.bind, hrun, pure, Except.pure]
        · rw [hlead, List.take_succ_cons, List.drop_succ_cons, List.map_cons, hqueue, List.map_cons,
            List.cons_append, List.map_cons]
      | false =>
        have hlead : leading (req :: rest) ready = 0 := by
          rw [leading, hfinished, hready, Bool.or_false, if_neg (by simp)]
        refine ⟨{ req with grammarWaitCt := req.grammarWaitCt + 1 } :: rest, cache, ?_, ?_⟩
        · rw [readyLoop, if_neg (by rw [hfinished]; simp), if_neg (by rw [hready]; simp), hlead]
          rfl
        · rw [hlead]
          rfl

theorem readyLoop_usable {queue : List (GrammarReq Γ)} {ready : Nat → Bool} {cache : Dict GrammarKey (Compiled Γ)}
    {result : List (GrammarReq Γ) × Nat × Nat × Dict GrammarKey (Compiled Γ)}
    (h : readyLoop compile grammarTimeout queue ready cache = .ok result) :
    ∀ req ∈ queue.take (leading queue ready), req.finished = false → Usable (compile req.grammarKey) := by
  induction queue generalizing ready cache result with
  | nil => exact fun req hreq => (by cases hreq)
  | cons req rest ih =>
    rw [readyLoop] at h
    intro other hother hunfinished
    cases hfinished : req.finished with
    | true =>
      rw [if_pos hfinished] at h
      obtain ⟨tail, htail, -⟩ := bind_ok h
      rw [leading, hfinished, Bool.true_or, if_pos rfl, List.take_succ_cons] at hother
      rcases List.mem_cons.mp hother with rfl | hmem
      · rw [hfinished] at hunfinished
        cases hunfinished
      · exact ih htail other hmem hunfinished
    | false =>
      rw [if_neg (by rw [hfinished]; simp)] at h
      cases hready : ready 0 with
      | true =>
        rw [if_pos hready] at h
        obtain ⟨taken, htaken, hrest⟩ := bind_ok h
        obtain ⟨tail, htail, -⟩ := bind_ok hrest
        rw [leading, hready, Bool.or_true, if_pos rfl, List.take_succ_cons] at hother
        rcases List.mem_cons.mp hother with rfl | hmem
        · exact takeResult_usable htaken
        · exact ih htail other hmem hunfinished
      | false =>
        rw [leading, hfinished, hready, Bool.or_false, if_neg (by simp), List.take_zero] at hother
        cases hother

theorem leading_le (queue : List (GrammarReq Γ)) (ready : Nat → Bool) : leading queue ready ≤ queue.length := by
  induction queue generalizing ready with
  | nil => exact Nat.le_refl 0
  | cons req rest ih =>
    rw [leading]
    split
    next => exact Nat.succ_le_succ (ih _)
    next => exact Nat.zero_le _

theorem leading_unfinished {queue : List (GrammarReq Γ)} {ready : Nat → Bool} {req : GrammarReq Γ}
    (h : queue[leading queue ready]? = some req) : req.finished = false := by
  induction queue generalizing ready with
  | nil => cases h
  | cons head rest ih =>
    rw [leading] at h
    split at h
    next => exact ih h
    next hstop =>
      cases h
      rw [Bool.not_eq_true, Bool.or_eq_false_iff] at hstop
      exact hstop.1

/-! ## The exchange -/

/-- A rank whose first `n` requests are settled. -/
def SettledTo (compile : GrammarKey → Compiled Γ) (queue : List (GrammarReq Γ)) (n : Nat) (rank : GrammarRank Γ) : Prop :=
  rank.grammarQueue.map shared = (queue.take n).map (settled compile) ++ queue.drop n

theorem set_at_length {α : Type} (xs : List α) (x y : α) (ys : List α) : (xs ++ x :: ys).set xs.length y = xs ++ y :: ys := by
  rw [List.set_append_right _ _ (Nat.le_refl _), Nat.sub_self, List.set_cons_zero]

variable {queue : List (GrammarReq Γ)} {rank : GrammarRank Γ} {n : Nat}

/-- The request at the position where a rank stopped. -/
theorem SettledTo.get (h : SettledTo compile queue n rank) {req₀ : GrammarReq Γ} (hreq : queue[n]? = some req₀) :
    ∃ req, rank.grammarQueue[n]? = some req ∧ shared req = req₀ := by
  have hlt : n < queue.length := (List.getElem?_eq_some_iff.mp hreq).1
  have hget : (rank.grammarQueue.map shared)[n]? = some req₀ := by
    rw [h, List.getElem?_append_right (by simp), List.length_map, List.length_take, Nat.min_eq_left (Nat.le_of_lt hlt),
      Nat.sub_self, List.getElem?_drop, Nat.add_zero]
    exact hreq
  rw [List.getElem?_map] at hget
  exact Option.map_eq_some_iff.mp hget

/-- What is put there takes the place of the request. -/
theorem SettledTo.set (h : SettledTo compile queue n rank) {req₀ req : GrammarReq Γ} (hreq : queue[n]? = some req₀) :
    (rank.grammarQueue.set n req).map shared =
      (queue.take n).map (settled compile) ++ shared req :: queue.drop (n + 1) := by
  have hlt : n < queue.length := (List.getElem?_eq_some_iff.mp hreq).1
  have hlength : ((queue.take n).map (settled compile)).length = n := by
    rw [List.length_map, List.length_take, Nat.min_eq_left (Nat.le_of_lt hlt)]
  rw [List.map_set, h, List.drop_eq_getElem_cons hlt]
  have hset := set_at_length ((queue.take n).map (settled compile)) queue[n] (shared req) (queue.drop (n + 1))
  rwa [hlength] at hset

theorem take_succ_of_get {req₀ : GrammarReq Γ} (hreq : queue[n]? = some req₀) :
    queue.take (n + 1) = queue.take n ++ [req₀] := by
  rw [List.take_add_one, hreq]
  rfl

theorem completeAt_ok (h : SettledTo compile queue n rank) {req₀ : GrammarReq Γ} (hreq : queue[n]? = some req₀)
    (husable : req₀.finished = false → Usable (compile req₀.grammarKey)) :
    ∃ rank', completeAt compile rank n = .ok rank' ∧ SettledTo compile queue (n + 1) rank' := by
  obtain ⟨req, hget, rfl⟩ := h.get hreq
  have hlt : n < queue.length := (List.getElem?_eq_some_iff.mp hreq).1
  unfold completeAt SettledTo
  rw [hget, take_succ_of_get hreq, List.map_append, List.append_assoc]
  simp only [List.map_cons, List.map_nil]
  cases hfinished : req.finished with
  | true =>
    refine ⟨rank, if_pos rfl, ?_⟩
    rw [settled_of_finished (show (shared req).finished = true from hfinished), h, List.drop_eq_getElem_cons hlt,
      (List.getElem?_eq_some_iff.mp hreq).2]
    rfl
  | false =>
    obtain ⟨cache', htake⟩ := takeResult_ok rank.cache hfinished (husable hfinished)
    rw [if_neg (by simp), htake]
    refine ⟨_, rfl, ?_⟩
    rw [h.set hreq, shared_settled]
    rfl

theorem completeRange_ok (k : Nat) (h : SettledTo compile queue n rank) (hk : n + k ≤ queue.length)
    (husable : ∀ req ∈ queue.take (n + k), req.finished = false → Usable (compile req.grammarKey)) :
    ∃ rank', (List.range' n k).foldlM (completeAt compile) rank = .ok rank' ∧
      SettledTo compile queue (n + k) rank' := by
  induction k generalizing n rank with
  | zero => exact ⟨rank, rfl, h⟩
  | succ k ih =>
    have hlt : n < queue.length := by omega
    have hreq : queue[n]? = some queue[n] := List.getElem?_eq_getElem hlt
    have hmem : queue[n] ∈ queue.take (n + (k + 1)) := List.mem_take_iff_getElem.mpr ⟨n, by omega, rfl⟩
    obtain ⟨next, hnext, hsettled⟩ := completeAt_ok h hreq (husable _ hmem)
    rw [show n + (k + 1) = n + 1 + k by omega] at hk husable ⊢
    obtain ⟨rank', hrun, hrank'⟩ := ih hsettled hk husable
    refine ⟨rank', ?_, hrank'⟩
    rw [List.range'_succ, List.foldlM_cons, hnext]
    exact hrun

/-- The request where all ranks stopped is still a future, and is given up. -/
theorem timeOutAt_ok (h : SettledTo compile queue n rank) {req₀ : GrammarReq Γ} (hreq : queue[n]? = some req₀)
    (hfuture : req₀.grammar = .future) :
    ∃ rank', timeOutAt rank n = .ok rank' ∧
      rank'.grammarQueue.map shared = (queue.take n).map (settled compile) ++ timedOut req₀ :: queue.drop (n + 1) := by
  obtain ⟨req, hget, rfl⟩ := h.get hreq
  have hgrammar : req.grammar = .future := hfuture
  unfold timeOutAt
  simp only [hget, hgrammar]
  exact ⟨_, rfl, h.set hreq⟩

/-- A request that has been settled is no future. -/
theorem timeOutAt_settled {m : Nat} (h : SettledTo compile queue m rank) (hlt : n < m) {req₀ : GrammarReq Γ}
    (hreq : queue[n]? = some req₀) (hunfinished : req₀.finished = false) (husable : Usable (compile req₀.grammarKey)) :
    timeOutAt rank n = .error .attributeError := by
  have hget : (rank.grammarQueue.map shared)[n]? = some (settled compile req₀) := by
    rw [h, List.getElem?_append_left, List.getElem?_map, List.getElem?_take_of_lt hlt, hreq]
    · rfl
    · rw [List.length_map, List.length_take]
      have := (List.getElem?_eq_some_iff.mp hreq).1
      omega
  rw [List.getElem?_map] at hget
  obtain ⟨req, hreq', hshared⟩ := Option.map_eq_some_iff.mp hget
  have hgrammar : req.grammar = (settled compile req₀).grammar := (congrArg GrammarReq.grammar hshared : (shared req).grammar = _)
  unfold timeOutAt
  rw [hreq']
  simp only [hgrammar]
  unfold settled
  rw [if_neg (by rw [hunfinished]; simp)]
  cases hkey : compile req₀.grammarKey with
  | object grammar => rfl
  | invalid => rfl
  | unsupported | raises _ =>
    rw [hkey] at husable
    cases husable

/-! ## The group -/

theorem le_reduceMax {xs : List Nat} {x : Nat} (h : x ∈ xs) : x ≤ reduceMax xs := by
  induction xs with
  | nil => cases h
  | cons y ys ih =>
    rw [reduceMax, List.foldr_cons]
    rcases List.mem_cons.mp h with rfl | hmem
    · exact Nat.le_max_left _ _
    · exact Nat.le_trans (ih hmem) (Nat.le_max_right _ _)

theorem reduceMax_attained (xs : List Nat) : reduceMax xs = 0 ∨ reduceMax xs ∈ xs := by
  induction xs with
  | nil => exact Or.inl rfl
  | cons y ys ih =>
    rw [reduceMax, List.foldr_cons]
    rcases Nat.le_total (List.foldr max 0 ys) y with hle | hle
    · rw [Nat.max_eq_left hle]
      exact Or.inr List.mem_cons_self
    · rw [Nat.max_eq_right hle]
      exact ih.imp_right (List.mem_cons_of_mem y)

theorem timeouts_le (grammarTimeout : Rat) (queue : List (GrammarReq Γ)) : timeouts grammarTimeout queue ≤ 1 := by
  unfold timeouts
  split
  next => exact Nat.zero_le 1
  next =>
    split
    next => exact Nat.le_refl 1
    next => exact Nat.zero_le 1

theorem timeouts_pos (rank : GrammarRank Γ) (ready : Nat → Bool) :
    0 < timeouts grammarTimeout (rank.grammarQueue.drop (leading rank.grammarQueue ready)) ↔
      TimesOut grammarTimeout rank ready := by
  unfold TimesOut
  rw [← List.head?_drop]
  cases rank.grammarQueue.drop (leading rank.grammarQueue ready) with
  | nil => simp [timeouts]
  | cons req rest =>
    simp only [timeouts, List.head?_cons, Option.some.injEq, exists_eq_left']
    split
    next h => exact iff_of_true Nat.one_pos h
    next h => exact iff_of_false (Nat.lt_irrefl 0) h

/-- A rank after its first loop. -/
structure Counted (compile : GrammarKey → Compiled Γ) (grammarTimeout : Rat) (queue : List (GrammarReq Γ))
    (p : GrammarRank Γ × (Nat → Bool)) (counted : CountedRank Γ) : Prop where
  ready : counted.numReadyReqs = leading p.1.grammarQueue p.2
  timeout : counted.numTimeoutReqs =
    timeouts grammarTimeout (p.1.grammarQueue.drop (leading p.1.grammarQueue p.2))
  settled : SettledTo compile queue (leading p.1.grammarQueue p.2) counted.rank

theorem map_shared_settled (queue : List (GrammarReq Γ)) (n : Nat) :
    ((queue.take n).map (settled compile) ++ queue.drop n).map shared =
      ((queue.map shared).take n).map (settled compile) ++ (queue.map shared).drop n := by
  rw [List.map_append, List.map_map, List.map_drop, ← List.map_take, List.map_map]
  congr 2
  exact funext shared_settled

theorem count_ok {p : GrammarRank Γ × (Nat → Bool)} (hsame : p.1.grammarQueue.map shared = queue)
    (h : ∀ req ∈ p.1.grammarQueue.take (leading p.1.grammarQueue p.2), req.finished = false →
      Usable (compile req.grammarKey)) :
    ∃ counted, p.1.count compile grammarTimeout p.2 = .ok counted ∧ Counted compile grammarTimeout queue p counted := by
  obtain ⟨queue', cache', hrun, hqueue⟩ := readyLoop_ok grammarTimeout p.1.grammarQueue p.2 p.1.cache h
  refine ⟨⟨⟨queue', cache'⟩, _, _⟩, ?_, rfl, rfl, ?_⟩
  · unfold GrammarRank.count
    rw [hrun]
    rfl
  · rw [SettledTo, hqueue, map_shared_settled, hsame]

theorem count_mapM (grammarTimeout : Rat) {ranks : List (GrammarRank Γ × (Nat → Bool))}
    (hsame : ∀ p ∈ ranks, p.1.grammarQueue.map shared = queue)
    (h : ∀ p ∈ ranks, ∀ req ∈ p.1.grammarQueue.take (leading p.1.grammarQueue p.2), req.finished = false →
      Usable (compile req.grammarKey)) :
    ∃ counted, (ranks.mapM fun (rank, ready) => rank.count compile grammarTimeout ready) = .ok counted ∧
      List.Forall₂ (Counted compile grammarTimeout queue) ranks counted := by
  induction ranks with
  | nil => exact ⟨[], rfl, .nil⟩
  | cons p ranks ih =>
    obtain ⟨head, hhead, hcounted⟩ := count_ok (hsame p List.mem_cons_self) (h p List.mem_cons_self)
    obtain ⟨tail, htail, hall⟩ := ih (fun q hq => hsame q (List.mem_cons_of_mem _ hq))
      fun q hq => h q (List.mem_cons_of_mem _ hq)
    refine ⟨head :: tail, ?_, .cons hcounted hall⟩
    rw [List.mapM_cons]
    simp only [hhead, htail, bind, Except.bind, pure, Except.pure]

/-- The two numbers that the exchange gives. -/
def readyMax (ranks : List (GrammarRank Γ × (Nat → Bool))) : Nat :=
  reduceMax (ranks.map fun p => leading p.1.grammarQueue p.2)

def timeoutMax (grammarTimeout : Rat) (ranks : List (GrammarRank Γ × (Nat → Bool))) : Nat :=
  reduceMax (ranks.map fun p => timeouts grammarTimeout (p.1.grammarQueue.drop (leading p.1.grammarQueue p.2)))

theorem counted_max {ranks : List (GrammarRank Γ × (Nat → Bool))} {counted : List (CountedRank Γ)}
    (h : List.Forall₂ (Counted compile grammarTimeout queue) ranks counted) :
    counted.map CountedRank.numReadyReqs = ranks.map (fun p => leading p.1.grammarQueue p.2) ∧
      counted.map CountedRank.numTimeoutReqs = ranks.map fun p =>
        timeouts grammarTimeout (p.1.grammarQueue.drop (leading p.1.grammarQueue p.2)) := by
  induction h with
  | nil => exact ⟨rfl, rfl⟩
  | cons hhead _ ih =>
    refine ⟨?_, ?_⟩
    · rw [List.map_cons, List.map_cons, hhead.ready, ih.1]
    · rw [List.map_cons, List.map_cons, hhead.timeout, ih.2]

theorem counted_of_mem {ranks : List (GrammarRank Γ × (Nat → Bool))} {counted : List (CountedRank Γ)}
    (h : List.Forall₂ (Counted compile grammarTimeout queue) ranks counted) :
    (∀ p ∈ ranks, ∃ c ∈ counted, Counted compile grammarTimeout queue p c) ∧
      ∀ c ∈ counted, ∃ p ∈ ranks, Counted compile grammarTimeout queue p c := by
  induction h with
  | nil => exact ⟨fun p hp => (by cases hp), fun c hc => (by cases hc)⟩
  | cons hhead _ ih =>
    refine ⟨fun p hp => ?_, fun c hc => ?_⟩
    · rcases List.mem_cons.mp hp with rfl | hmem
      · exact ⟨_, List.mem_cons_self, hhead⟩
      · obtain ⟨c, hc, hcounted⟩ := ih.1 p hmem
        exact ⟨c, List.mem_cons_of_mem _ hc, hcounted⟩
    · rcases List.mem_cons.mp hc with rfl | hmem
      · exact ⟨_, List.mem_cons_self, hhead⟩
      · obtain ⟨p, hp, hcounted⟩ := ih.2 c hmem
        exact ⟨p, List.mem_cons_of_mem _ hp, hcounted⟩

section Exchange

variable {ranks : List (GrammarRank Γ × (Nat → Bool))}

theorem leading_le_readyMax {p : GrammarRank Γ × (Nat → Bool)} (hp : p ∈ ranks) :
    leading p.1.grammarQueue p.2 ≤ readyMax ranks :=
  le_reduceMax (List.mem_map_of_mem hp)

theorem timeoutMax_pos : 0 < timeoutMax grammarTimeout ranks ↔ ∃ p ∈ ranks, TimesOut grammarTimeout p.1 p.2 := by
  constructor
  · intro hpos
    rcases reduceMax_attained (ranks.map fun p =>
      timeouts grammarTimeout (p.1.grammarQueue.drop (leading p.1.grammarQueue p.2))) with hzero | hmem
    · exact absurd hzero (Nat.ne_of_gt hpos)
    · obtain ⟨p, hp, heq⟩ := List.mem_map.mp hmem
      exact ⟨p, hp, (timeouts_pos p.1 p.2).mp (heq ▸ hpos)⟩
  · rintro ⟨p, hp, htimeout⟩
    exact Nat.lt_of_lt_of_le ((timeouts_pos p.1 p.2).mpr htimeout) (le_reduceMax (List.mem_map_of_mem hp))

theorem timeoutMax_le : timeoutMax grammarTimeout ranks ≤ 1 := by
  rcases reduceMax_attained (ranks.map fun p =>
    timeouts grammarTimeout (p.1.grammarQueue.drop (leading p.1.grammarQueue p.2))) with hzero | hmem
  · rw [timeoutMax, hzero]
    exact Nat.zero_le 1
  · obtain ⟨p, -, heq⟩ := List.mem_map.mp hmem
    unfold timeoutMax
    rw [← heq]
    exact timeouts_le _ _

/-- What some rank found ready, all ranks can take. -/
theorem usable_readyMax (hqueue : HoldsQueue queue ranks)
    (h : ∀ p ∈ ranks, ∀ req ∈ p.1.grammarQueue.take (leading p.1.grammarQueue p.2), req.finished = false →
      Usable (compile req.grammarKey)) :
    readyMax ranks ≤ queue.length ∧
      ∀ req ∈ queue.take (readyMax ranks), req.finished = false → Usable (compile req.grammarKey) := by
  rcases reduceMax_attained (ranks.map fun p => leading p.1.grammarQueue p.2) with hzero | hmem
  · rw [readyMax, hzero]
    exact ⟨Nat.zero_le _, fun req hreq => (by cases hreq)⟩
  · obtain ⟨p, hp, heq⟩ := List.mem_map.mp hmem
    rw [readyMax, ← heq, ← hqueue.same p hp, List.length_map, ← List.map_take]
    refine ⟨leading_le _ _, fun req hreq hunfinished => ?_⟩
    obtain ⟨own, hown, rfl⟩ := List.mem_map.mp hreq
    exact h p hp own hown hunfinished

/-- A rank moves what is settled, and the request that timed out where all ranks stopped. -/
theorem move_ok (hqueue : HoldsQueue queue ranks) (hsettles : SettlesAlike compile grammarTimeout ranks)
    {p : GrammarRank Γ × (Nat → Bool)} (hp : p ∈ ranks) {counted : CountedRank Γ}
    (hcounted : Counted compile grammarTimeout queue p counted) :
    ∃ out, counted.move compile (readyMax ranks) (timeoutMax grammarTimeout ranks) = .ok out ∧
      out.1.map shared = (queue.take (readyMax ranks)).map (settled compile) ++
        ((queue.drop (readyMax ranks)).take (timeoutMax grammarTimeout ranks)).map timedOut ∧
      out.2.grammarQueue.map shared = queue.drop (readyMax ranks + timeoutMax grammarTimeout ranks) := by
  obtain ⟨hle, husable⟩ := usable_readyMax hqueue hsettles.usable
  have hlead := leading_le_readyMax hp
  have hsum : leading p.1.grammarQueue p.2 + (readyMax ranks - leading p.1.grammarQueue p.2) = readyMax ranks := by omega
  obtain ⟨rank, hrun, hsettled⟩ := completeRange_ok (readyMax ranks - leading p.1.grammarQueue p.2) hcounted.settled
    (by omega) (by rwa [hsum])
  rw [hsum] at hsettled
  have htake : ((queue.take (readyMax ranks)).map (settled compile)).length = readyMax ranks := by
    rw [List.length_map, List.length_take, Nat.min_eq_left hle]
  unfold CountedRank.move
  rw [hcounted.ready, hrun]
  rcases Nat.eq_zero_or_pos (timeoutMax grammarTimeout ranks) with hzero | hpos
  · rw [hzero]
    refine ⟨_, rfl, ?_, ?_⟩
    · simp only [Nat.add_zero, List.take_zero, List.map_nil, List.append_nil]
      rw [List.map_take, hsettled, List.take_left' htake]
    · simp only [Nat.add_zero]
      rw [List.map_drop, hsettled, List.drop_left' htake]
  · -- a rank timed out, so all ranks stopped at the same request
    have hone : timeoutMax grammarTimeout ranks = 1 := Nat.le_antisymm timeoutMax_le hpos
    obtain ⟨q, hq, htimeout⟩ := timeoutMax_pos.mp hpos
    have hsame : ∀ p' ∈ ranks, leading p'.1.grammarQueue p'.2 = leading q.1.grammarQueue q.2 := by
      rcases hsettles.waits with hnone | hsame
      · exact absurd htimeout (hnone q hq)
      · exact fun p' hp' => hsame p' hp' q hq
    have hmax : readyMax ranks = leading q.1.grammarQueue q.2 := by
      rcases reduceMax_attained (ranks.map fun p => leading p.1.grammarQueue p.2) with hnil | hmem
      · refine Nat.le_antisymm ?_ (leading_le_readyMax hq)
        rw [readyMax, hnil]
        exact Nat.zero_le _
      · obtain ⟨p', hp', heq⟩ := List.mem_map.mp hmem
        exact heq.symm.trans (hsame p' hp')
    obtain ⟨own, hown, -⟩ := htimeout
    have hreq : queue[readyMax ranks]? = some (shared own) := by
      rw [hmax, ← hqueue.same q hq, List.getElem?_map, hown]
      rfl
    have hunfinished : own.finished = false := leading_unfinished hown
    have hfuture := hqueue.futures (shared own) (List.mem_of_getElem? hreq) hunfinished
    obtain ⟨rank', hrun', hqueue'⟩ := timeOutAt_ok hsettled hreq hfuture
    rw [hone, hsame p hp, ← hmax]
    have hdrop : (queue.drop (readyMax ranks)).take 1 = [shared own] := by
      rw [List.drop_eq_getElem_cons (List.getElem?_eq_some_iff.mp hreq).1, (List.getElem?_eq_some_iff.mp hreq).2]
      rfl
    have htake' : ((queue.take (readyMax ranks)).map (settled compile) ++ [timedOut (shared own)]).length =
        readyMax ranks + 1 := by
      rw [List.length_append, htake]
      rfl
    have hfold : (List.range' (readyMax ranks) 1).foldlM timeOutAt rank = .ok rank' := by
      rw [List.range'_one, List.foldlM_cons, hrun']
      rfl
    simp only [bind, Except.bind, hfold, pure, Except.pure]
    refine ⟨_, rfl, ?_, ?_⟩
    · simp only
      rw [List.map_take, hqueue', hdrop, List.append_cons, List.take_left' htake']
      rfl
    · simp only
      rw [List.map_drop, hqueue', List.append_cons, List.drop_left' htake']

/-- A rank that is behind when some rank times out has settled the request that it must cancel. -/
theorem move_behind (hqueue : HoldsQueue queue ranks)
    (husable : ∀ p ∈ ranks, ∀ req ∈ p.1.grammarQueue.take (leading p.1.grammarQueue p.2), req.finished = false →
      Usable (compile req.grammarKey)) {p : GrammarRank Γ × (Nat → Bool)} (hp : p ∈ ranks) {counted : CountedRank Γ}
    (hcounted : Counted compile grammarTimeout queue p counted)
    (hbehind : leading p.1.grammarQueue p.2 < readyMax ranks) (htimeout : 0 < timeoutMax grammarTimeout ranks) :
    counted.move compile (readyMax ranks) (timeoutMax grammarTimeout ranks) = .error .attributeError := by
  obtain ⟨hle, husable'⟩ := usable_readyMax hqueue husable
  have hsum : leading p.1.grammarQueue p.2 + (readyMax ranks - leading p.1.grammarQueue p.2) = readyMax ranks := by omega
  obtain ⟨rank, hrun, hsettled⟩ := completeRange_ok (readyMax ranks - leading p.1.grammarQueue p.2) hcounted.settled
    (by omega) (by rwa [hsum])
  rw [hsum] at hsettled
  have hlt : leading p.1.grammarQueue p.2 < p.1.grammarQueue.length := by
    have hlength := congrArg List.length (hqueue.same p hp)
    rw [List.length_map] at hlength
    omega
  have hown := List.getElem?_eq_getElem hlt
  have hreq : queue[leading p.1.grammarQueue p.2]? = some (shared p.1.grammarQueue[leading p.1.grammarQueue p.2]) := by
    conv_lhs => rw [← hqueue.same p hp]
    rw [List.getElem?_map, hown]
    rfl
  have hunfinished := leading_unfinished hown
  have herror := timeOutAt_settled hsettled hbehind hreq hunfinished
    (husable' _ (List.mem_take_iff_getElem.mpr ⟨_, by omega, (List.getElem?_eq_some_iff.mp hreq).2⟩) hunfinished)
  unfold CountedRank.move
  rw [hcounted.ready, hrun, Nat.le_antisymm timeoutMax_le htimeout]
  simp only [List.range'_one, List.foldlM_cons, herror, bind, Except.bind]

end Exchange

/-- The ranks move the same requests with the same outcome exactly when everything that is ready can
be taken and no rank times out while they wait for different requests. -/
theorem ranks_move_alike {ranks : List (GrammarRank Γ × (Nat → Bool))} (hqueue : HoldsQueue queue ranks) :
    MovesAlike (moveReadyGrammarRequests compile grammarTimeout ranks) ↔ SettlesAlike compile grammarTimeout ranks := by
  constructor
  · rintro ⟨outs, moved, left, hok, -⟩
    obtain ⟨counted, hcount, hmove⟩ := bind_ok hok
    have husable : ∀ p ∈ ranks, ∀ req ∈ p.1.grammarQueue.take (leading p.1.grammarQueue p.2), req.finished = false →
        Usable (compile req.grammarKey) := by
      intro p hp
      obtain ⟨c, hc⟩ := (mapM_mem hcount).1 p hp
      obtain ⟨result, hloop, -⟩ := bind_ok hc
      exact readyLoop_usable hloop
    obtain ⟨counted', hcount', hall⟩ := count_mapM grammarTimeout hqueue.same husable
    obtain rfl := Except.ok.inj (hcount.symm.trans hcount')
    rw [(counted_max hall).1, (counted_max hall).2] at hmove
    refine ⟨husable, or_iff_not_imp_left.mpr fun hsome => ?_⟩
    have htimeout : 0 < timeoutMax grammarTimeout ranks := by
      rw [timeoutMax_pos]
      by_contra hnone
      exact hsome fun p hp htimesOut => hnone ⟨p, hp, htimesOut⟩
    -- a rank that is behind would raise
    have hahead : ∀ p ∈ ranks, leading p.1.grammarQueue p.2 = readyMax ranks := by
      intro p hp
      by_contra hne
      obtain ⟨c, hc, hcounted⟩ := (counted_of_mem hall).1 p hp
      obtain ⟨out, hout⟩ := (mapM_mem hmove).1 c hc
      have herror := move_behind hqueue husable hp hcounted (Nat.lt_of_le_of_ne (leading_le_readyMax hp) hne) htimeout
      cases hout.symm.trans herror
    exact fun p hp p' hp' => (hahead p hp).trans (hahead p' hp').symm
  · intro hsettles
    obtain ⟨counted, hcount, hall⟩ := count_mapM grammarTimeout hqueue.same hsettles.usable
    obtain ⟨outs, houts⟩ : ∃ outs, (counted.mapM fun c => c.move compile (readyMax ranks)
        (timeoutMax grammarTimeout ranks)) = .ok outs := by
      refine mapM_exists fun c hc => ?_
      obtain ⟨p, hp, hcounted⟩ := (counted_of_mem hall).2 c hc
      obtain ⟨out, hout, -⟩ := move_ok hqueue hsettles hp hcounted
      exact ⟨out, hout⟩
    refine ⟨outs, (queue.take (readyMax ranks)).map (settled compile) ++
        ((queue.drop (readyMax ranks)).take (timeoutMax grammarTimeout ranks)).map timedOut,
      queue.drop (readyMax ranks + timeoutMax grammarTimeout ranks), ?_, fun out hout => ?_⟩
    · unfold moveReadyGrammarRequests
      rw [hcount]
      simp only [bind, Except.bind, (counted_max hall).1, (counted_max hall).2]
      exact houts
    · obtain ⟨c, hc, hmove⟩ := (mapM_mem houts).2 out hout
      obtain ⟨p, hp, hcounted⟩ := (counted_of_mem hall).2 c hc
      obtain ⟨out', hout', hmoved, hleft⟩ := move_ok hqueue hsettles hp hcounted
      obtain rfl := Except.ok.inj (hmove.symm.trans hout')
      exact ⟨hmoved, hleft⟩

/-! ### Two ranks -/

/-- Two grammars in a queue that starts to wait. -/
def schemaQueue : List (GrammarReq String) :=
  [⟨"a", none, ("json", "x"), .future, 0⟩, ⟨"b", none, ("regex", "x"), .future, 0⟩]

def compileText (key : GrammarKey) : Compiled String := .object key.2

/-- A rank where the first requests are compiled. -/
def schemaRank (compiled : Nat) : GrammarRank String × (Nat → Bool) :=
  (⟨schemaQueue, .empty⟩, fun i => decide (i < compiled))

theorem schemaRanks_hold (first second : Nat) : HoldsQueue schemaQueue [schemaRank first, schemaRank second] := by
  refine ⟨fun p hp => ?_, fun req hreq _ => ?_⟩
  · simp only [List.mem_cons, List.not_mem_nil, or_false] at hp
    rcases hp with rfl | rfl <;> rfl
  · simp only [schemaQueue, List.mem_cons, List.not_mem_nil, or_false] at hreq
    rcases hreq with rfl | rfl <;> rfl

/-- One rank is ahead and none has waited too long. -/
theorem ahead_moves_alike : MovesAlike (moveReadyGrammarRequests compileText 300 [schemaRank 2, schemaRank 1]) := by
  refine (ranks_move_alike (schemaRanks_hold 2 1)).mpr ⟨fun _ _ _ _ _ => trivial, Or.inl fun p hp htimesOut => ?_⟩
  obtain ⟨req, hreq, hlong⟩ := htimesOut
  have hwait : req.grammarWaitCt = 0 := by
    simp only [List.mem_cons, List.not_mem_nil, or_false] at hp
    have hmem := List.mem_of_getElem? hreq
    rcases hp with rfl | rfl <;>
      (simp only [schemaRank, schemaQueue, List.mem_cons, List.not_mem_nil, or_false] at hmem
       rcases hmem with rfl | rfl <;> rfl)
  rw [hwait] at hlong
  norm_num at hlong

/-- One rank has waited too long for the first request, which the other one has: the first rank
cancels a grammar. -/
theorem timeout_while_ahead_raises : HoldsQueue schemaQueue [schemaRank 0, schemaRank 2] ∧
    ¬MovesAlike (moveReadyGrammarRequests compileText 0 [schemaRank 0, schemaRank 2]) := by
  have hraises : (moveReadyGrammarRequests compileText 0 [schemaRank 0, schemaRank 2]).toOption.isNone = true := by
    decide +kernel
  refine ⟨schemaRanks_hold 0 2, fun halike => ?_⟩
  obtain ⟨outs, moved, left, hok, -⟩ := halike
  rw [hok] at hraises
  cases hraises

end QCFuse.Guarantees
