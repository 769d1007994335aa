import QCFuse.Guarantees.NgramDrafts
import QCFuse.Library.Transition

/-!
# Every rank drafts the same tree

A rank is its client's calls, the insert queue and the worker, which takes a sequence from the
queue before it takes the lock of the trie. A rank whose worker has caught up when it is read or
reset answers what one sequential cache answers to the same calls.
-/

set_option autoImplicit false

namespace QCFuse.Guarantees

open QCFuse.Library QCFuse.Source

/-- A call of the client; `asyncInsert` enqueues its sequences one by one. -/
inductive NgramCall where
  | enqueue (data : List Int)
  | synchronize
  | reset
  | batchMatch (tokens : List (List Int))
  deriving DecidableEq, Repr

/-- An answer of `batchMatch`, and whether a `synchronize` came after the last sequence. -/
structure NgramAnswer where
  synced : Bool
  tokens : List (List Int)
  result : Except NgramError NgramResult

structure NgramRank where
  trie : Ngram
  queue : List (List Int)
  /-- dequeued, and not inserted yet -/
  data : Option (List Int)
  synced : Bool
  calls : List NgramCall
  answers : List NgramAnswer

inductive NgramLabel where
  | call (call : NgramCall)
  | dequeue
  | insert
  deriving DecidableEq, Repr

section Machine

variable {D : Type} (platform : Platform D)

namespace NgramRank

def start (trie : Ngram) : NgramRank := ⟨trie, [], none, false, [], []⟩

/-- A call that returns. -/
def client (r : NgramRank) : NgramCall → Option NgramRank
  | .enqueue data => some { r with queue := r.queue ++ [data], synced := false }
  | .synchronize => if r.queue = [] then some { r with synced := true } else none
  | .reset => r.trie.reset.toOption.map fun trie => { r with trie }
  | .batchMatch tokens => some { r with
      answers := r.answers ++ [⟨r.synced, tokens, Ngram.batchMatch platform r.trie tokens⟩] }

def step : NgramLabel → NgramRank → Option NgramRank
  | .call c, r => (r.client platform c).map fun r => { r with calls := r.calls ++ [c] }
  | .dequeue, r =>
    match r.data, r.queue with
    | none, data :: queue => some { r with queue, data := some data }
    | _, _ => none
  | .insert, r => r.data.bind fun data => (r.trie.insert data).toOption.map fun trie =>
      { r with trie, data := none }

/-- Answers that the ranks have to agree on. -/
def agreed (r : NgramRank) : List NgramAnswer := r.answers.filter NgramAnswer.synced

/-- What the worker still has to insert. -/
def backlog (r : NgramRank) : List (List Int) := r.data.toList ++ r.queue

end NgramRank

def ngramMachine : Machine NgramRank NgramLabel where
  step := NgramRank.step platform

/-- The worker has caught up when the trie is reset, or read after a `synchronize`, and no sequence
needs every place of the pool. -/
def CaughtUp (r : NgramRank) : NgramLabel → Prop
  | .call (.enqueue data) => (NgramOp.insert data).Fits r.trie.param r.trie.capacity
  | .call .reset => r.backlog = []
  | .call (.batchMatch _) => r.synced = true → r.data = none
  | _ => True

/-! ## One cache, one call after the other -/

/-- A cache that inserts at once, with what the ranks have to agree on. -/
structure SequentialNgram where
  trie : Ngram
  synced : Bool
  answers : List NgramAnswer

def SequentialNgram.call (q : SequentialNgram) : NgramCall → Option SequentialNgram
  | .enqueue data => (q.trie.insert data).toOption.map fun trie => { q with trie, synced := false }
  | .synchronize => some { q with synced := true }
  | .reset => q.trie.reset.toOption.map fun trie => { q with trie }
  | .batchMatch tokens => some (if q.synced then { q with
      answers := q.answers ++ [⟨true, tokens, Ngram.batchMatch platform q.trie tokens⟩] } else q)

def SequentialNgram.run (trie : Ngram) (calls : List NgramCall) : Option SequentialNgram :=
  calls.foldlM (SequentialNgram.call platform) ⟨trie, false, []⟩

/-- The backlog leads from the rank's trie to the sequential one. -/
structure Follows (param : NgramParam) (capacity : Nat) (q : SequentialNgram) (r : NgramRank) : Prop where
  holding : ∃ last, Holding param capacity last r.trie
  fits : ∀ data ∈ r.backlog, (NgramOp.insert data).Fits param capacity
  trie : r.backlog.foldlM Ngram.insert r.trie = .ok q.trie
  synced : q.synced = r.synced
  empty : r.synced = true → r.queue = []
  answers : q.answers = r.agreed
  answered : ∀ answer ∈ r.answers, (∀ tks ∈ answer.tokens, tks ≠ []) → ∃ result, answer.result = .ok result

variable {platform} {param : NgramParam} {capacity : Nat} {q : SequentialNgram} {r r' : NgramRank}

theorem SequentialNgram.run_append {trie : Ngram} {calls : List NgramCall} {q q' : SequentialNgram}
    {c : NgramCall} (h : run platform trie calls = some q) (hc : q.call platform c = some q') :
    run platform trie (calls ++ [c]) = some q' := by
  rw [run, List.foldlM_append, ← run, h]
  simpa using hc

/-- The cache that inserts at once is whole as well. -/
theorem Follows.sequential (h : Follows param capacity q r) (hcap : param.branchLength ≤ capacity)
    (hpos : 0 < capacity) : ∃ last, Holding param capacity last q.trie := by
  obtain ⟨last, hholding⟩ := h.holding
  obtain ⟨t, hrun, ht⟩ := hholding.run hcap hpos (show ∀ op ∈ r.backlog.map NgramOp.insert,
      op.Fits param capacity by
    intro op hop
    obtain ⟨data, hdata, rfl⟩ := List.mem_map.mp hop
    exact h.fits data hdata)
  rw [List.foldlM_map] at hrun
  obtain rfl : t = q.trie := Except.ok.inj (hrun.symm.trans h.trie)
  exact ⟨_, ht⟩

theorem Follows.caught_up (h : Follows param capacity q r) (hempty : r.backlog = []) : q.trie = r.trie := by
  have htrie := h.trie
  rw [hempty] at htrie
  exact (Except.ok.inj htrie).symm

theorem toOption_ok {t : Ngram} {x : Except NgramError Ngram} (h : x = .ok t) : x.toOption = some t := by
  rw [h]
  rfl

theorem Follows.enqueue (h : Follows param capacity q r) (hcap : param.branchLength ≤ capacity)
    (hpos : 0 < capacity) {data : List Int} (hfits : (NgramOp.insert data).Fits param capacity) :
    ∃ q', q.call platform (.enqueue data) = some q' ∧
      Follows param capacity q' { r with queue := r.queue ++ [data], synced := false } := by
  obtain ⟨last, hq⟩ := h.sequential hcap hpos
  obtain ⟨t, ht, -⟩ := hq.step hcap hpos hfits
  have hbacklog : NgramRank.backlog { r with queue := r.queue ++ [data], synced := false } = r.backlog ++ [data] :=
    (List.append_assoc _ _ _).symm
  refine ⟨{ q with trie := t, synced := false }, ?_, h.holding, ?_, ?_, rfl,
    fun hs => absurd hs Bool.false_ne_true, h.answers, h.answered⟩
  · rw [SequentialNgram.call, toOption_ok (show q.trie.insert data = .ok t from ht)]
    rfl
  · intro d hd
    rw [hbacklog, List.mem_append, List.mem_singleton] at hd
    rcases hd with hold | rfl
    · exact h.fits d hold
    · exact hfits
  · rw [hbacklog, List.foldlM_append, h.trie]
    exact (bind_pure (q.trie.insert data)).trans ht

theorem Follows.synchronize (h : Follows param capacity q r) (hempty : r.queue = []) :
    Follows param capacity { q with synced := true } { r with synced := true } :=
  ⟨h.holding, h.fits, h.trie, rfl, fun _ => hempty, h.answers, h.answered⟩

theorem Follows.reset (h : Follows param capacity q r) (hpos : 0 < capacity) (hempty : r.backlog = []) {trie : Ngram}
    (hreset : r.trie.reset = .ok trie) :
    q.call platform .reset = some { q with trie } ∧ Follows param capacity { q with trie } { r with trie } := by
  obtain ⟨last, hholding⟩ := h.holding
  obtain ⟨t, ht, hlinked, hparam, hcapacity⟩ := reset_linked (s := r.trie) (hholding.capacity ▸ hpos)
  obtain rfl : t = trie := Except.ok.inj (ht.symm.trans hreset)
  refine ⟨?_, ⟨none, hlinked, hparam.trans hholding.param, hcapacity.trans hholding.capacity,
    fun w hw => absurd hw (Option.not_mem_none w)⟩, h.fits, ?_, h.synced, h.empty, h.answers, h.answered⟩
  · rw [SequentialNgram.call, h.caught_up hempty, toOption_ok hreset]
    rfl
  · rw [show NgramRank.backlog { r with trie := t } = r.backlog from rfl, hempty]
    rfl

theorem Follows.batchMatch (h : Follows param capacity q r) (hread : r.synced = true → r.data = none)
    (tokens : List (List Int)) : ∃ q', q.call platform (.batchMatch tokens) = some q' ∧
      Follows param capacity q' { r with
        answers := r.answers ++ [⟨r.synced, tokens, Ngram.batchMatch platform r.trie tokens⟩] } := by
  obtain ⟨last, hholding⟩ := h.holding
  refine ⟨_, rfl, ?_⟩
  have hanswered : ∀ answer ∈ r.answers ++ [⟨r.synced, tokens, Ngram.batchMatch platform r.trie tokens⟩],
      (∀ tks ∈ answer.tokens, tks ≠ []) → ∃ result, answer.result = .ok result := by
    intro answer hanswer hne
    rcases List.mem_append.mp hanswer with hold | hnew
    · exact h.answered answer hold hne
    · rw [List.mem_singleton.mp hnew] at hne ⊢
      exact batchMatch_ok platform hholding.linked hne
  cases hs : r.synced with
  | false =>
    rw [if_neg (by rw [h.synced, hs]; exact Bool.false_ne_true)]
    refine ⟨h.holding, h.fits, h.trie, h.synced.trans hs, fun hfalse => absurd hfalse Bool.false_ne_true, ?_,
      hs ▸ hanswered⟩
    rw [NgramRank.agreed, List.filter_append, h.answers]
    exact (List.append_nil _).symm
  | true =>
    have hempty : r.backlog = [] := by
      rw [NgramRank.backlog, hread hs, h.empty hs]
      rfl
    rw [if_pos (h.synced.trans hs), h.caught_up hempty]
    refine ⟨h.holding, h.fits, ?_, h.synced.trans hs, fun _ => h.empty hs, ?_, hs ▸ hanswered⟩
    · have htrie := h.trie
      rw [h.caught_up hempty] at htrie
      exact htrie
    · rw [NgramRank.agreed, List.filter_append, h.answers]
      rfl

theorem Follows.dequeue (h : Follows param capacity q r) {data : List Int} {queue : List (List Int)}
    (hdata : r.data = none) (hqueue : r.queue = data :: queue) :
    Follows param capacity q { r with queue, data := some data } := by
  have hbacklog : NgramRank.backlog { r with queue, data := some data } = r.backlog := by
    rw [NgramRank.backlog, NgramRank.backlog, hdata, hqueue]
    rfl
  refine ⟨h.holding, hbacklog ▸ h.fits, hbacklog ▸ h.trie, h.synced, fun hs => ?_, h.answers, h.answered⟩
  have hempty := h.empty hs
  rw [hqueue] at hempty
  cases hempty

theorem Follows.insert (h : Follows param capacity q r) (hcap : param.branchLength ≤ capacity)
    (hpos : 0 < capacity) {data : List Int} (hdata : r.data = some data) :
    ∃ trie, r.trie.insert data = .ok trie ∧ Follows param capacity q { r with trie, data := none } := by
  obtain ⟨last, hholding⟩ := h.holding
  have hbacklog : r.backlog = data :: r.queue := by
    rw [NgramRank.backlog, hdata]
    rfl
  obtain ⟨t, ht, hstep⟩ := hholding.step hcap hpos (h.fits data (hbacklog ▸ List.mem_cons_self))
  have hrun : r.trie.insert data = .ok t := ht
  have htrie := h.trie
  rw [hbacklog, List.foldlM_cons, hrun] at htrie
  exact ⟨t, hrun, ⟨_, hstep⟩, fun d hd => h.fits d (hbacklog ▸ List.mem_cons_of_mem data hd), htrie, h.synced,
    h.empty, h.answers, h.answered⟩

/-- A rank that follows the sequential cache keeps following it. -/
theorem follows_step {s : Ngram} {label : NgramLabel} (hcap : param.branchLength ≤ capacity) (hpos : 0 < capacity)
    (hr : ∃ q, SequentialNgram.run platform s r.calls = some q ∧ Follows param capacity q r)
    (hguard : CaughtUp r label) (hstep : r.step platform label = some r') :
    ∃ q, SequentialNgram.run platform s r'.calls = some q ∧ Follows param capacity q r' := by
  obtain ⟨q, hrun, h⟩ := hr
  cases label with
  | call c =>
    obtain ⟨t, hclient, heq⟩ := Option.map_eq_some_iff.mp hstep
    subst heq
    have hcalls : ∀ {q'}, q.call platform c = some q' → Follows param capacity q' t → t.calls = r.calls →
        ∃ q, SequentialNgram.run platform s (t.calls ++ [c]) = some q ∧
          Follows param capacity q { t with calls := t.calls ++ [c] } := by
      intro q' hq' ht hsame
      rw [hsame]
      exact ⟨q', SequentialNgram.run_append hrun hq', ht.holding, ht.fits, ht.trie, ht.synced, ht.empty,
        ht.answers, ht.answered⟩
    cases c with
    | enqueue data =>
      obtain ⟨last, hholding⟩ := h.holding
      cases hclient
      have hfits : (NgramOp.insert data).Fits param capacity := by
        have hguard : (NgramOp.insert data).Fits r.trie.param r.trie.capacity := hguard
        rwa [hholding.param, hholding.capacity] at hguard
      obtain ⟨q', hq', ht⟩ := h.enqueue hcap hpos hfits
      exact hcalls hq' ht rfl
    | synchronize =>
      simp only [NgramRank.client] at hclient
      split at hclient
      next hempty =>
        cases hclient
        exact hcalls rfl (h.synchronize hempty) rfl
      next => cases hclient
    | reset =>
      obtain ⟨trie, htrie, heq⟩ := Option.map_eq_some_iff.mp hclient
      subst heq
      cases hreset : r.trie.reset with
      | error e =>
        rw [hreset] at htrie
        cases htrie
      | ok t =>
        rw [hreset] at htrie
        cases htrie
        obtain ⟨hq', ht⟩ : q.call platform .reset = some { q with trie } ∧ _ := h.reset hpos hguard hreset
        exact hcalls hq' ht rfl
    | batchMatch tokens =>
      cases hclient
      obtain ⟨q', hq', ht⟩ := h.batchMatch hguard tokens
      exact hcalls hq' ht rfl
  | dequeue =>
    simp only [NgramRank.step] at hstep
    split at hstep
    next data queue hdata hqueue =>
      cases hstep
      exact ⟨q, hrun, h.dequeue hdata hqueue⟩
    next => cases hstep
  | insert =>
    obtain ⟨data, hdata, hstep⟩ := Option.bind_eq_some_iff.mp hstep
    obtain ⟨trie, htrie, ht⟩ := h.insert hcap hpos hdata
    rw [toOption_ok htrie] at hstep
    cases hstep
    exact ⟨q, hrun, ht⟩

/-- A rank whose worker keeps up refines the cache that inserts at once. -/
theorem rank_follows {s : Ngram} (hs : Ngram.create capacity param = .ok s)
    (hcap : param.branchLength ≤ capacity)
    (hr : (ngramMachine platform).Reach CaughtUp (· = NgramRank.start s) r) :
    ∃ q, SequentialNgram.run platform s r.calls = some q ∧ Follows param capacity q r := by
  obtain ⟨hholding, hmin⟩ := create_holding hs
  have hpos : 0 < capacity := by omega
  have hstart : ∀ r, r = NgramRank.start s → ∃ q, SequentialNgram.run platform s r.calls = some q ∧
      Follows param capacity q r := by
    rintro _ rfl
    exact ⟨⟨s, false, []⟩, rfl, ⟨none, hholding⟩, fun d hd => absurd hd List.not_mem_nil, rfl, rfl,
      fun hs => absurd hs Bool.false_ne_true, rfl, fun a ha => absurd ha List.not_mem_nil⟩
  exact hr.invariant hstart fun r r' label hinv hguard hstep => follows_step hcap hpos hinv hguard hstep

end Machine

section Agreement

variable {D : Type} {platform : Platform D} {param : NgramParam} {capacity : Nat} {s : Ngram}

theorem SequentialNgram.call_answers {q q' : SequentialNgram} {c : NgramCall}
    (h : q.call platform c = some q') : q.answers <+: q'.answers := by
  cases c with
  | synchronize =>
    cases h
    exact List.prefix_refl _
  | batchMatch tokens =>
    cases h
    split
    · exact List.prefix_append _ _
    · exact List.prefix_refl _
  | _ =>
    obtain ⟨t, -, heq⟩ := Option.map_eq_some_iff.mp h
    subst heq
    exact List.prefix_refl _

theorem SequentialNgram.run_answers {q q' : SequentialNgram} {calls : List NgramCall}
    (h : calls.foldlM (SequentialNgram.call platform) q = some q') : q.answers <+: q'.answers := by
  induction calls generalizing q with
  | nil =>
    cases h
    exact List.prefix_refl _
  | cons c calls ih =>
    rw [List.foldlM_cons] at h
    obtain ⟨t, ht, hrest⟩ := Option.bind_eq_some_iff.mp h
    exact (call_answers ht).trans (ih hrest)

end Agreement

/-! ### Two ranks -/

instance (r : NgramRank) (label : NgramLabel) : Decidable (CaughtUp r label) := by
  unfold CaughtUp NgramOp.Fits
  split <;> infer_instance

/-- Integers for `double`, and a sorted list for the heap. -/
def integerPlatform : Platform Int where
  ofInt := id
  add := (· + ·)
  sub := (· - ·)
  mul := (· * ·)
  div := Int.tdiv
  le := fun a b => decide (a ≤ b)
  toInt := id
  mapOrder := id
  emplace := fun heap entry => heap.orderedInsert (fun a b => b.2.2 ≤ a.2.2) entry
  pop := List.tail
  mapOrder_perm := List.Perm.refl
  emplace_perm := fun heap entry => List.perm_orderedInsert _ entry heap
  pop_perm := fun _ heap => List.Perm.refl heap

/-- One sequence, then a read after `synchronize`; the worker inserts before it. -/
def promptWorker : List NgramLabel :=
  [.call (.enqueue [7, 8]), .dequeue, .insert, .call .synchronize, .call (.batchMatch [[7]])]

/-- The worker inserts after `synchronize` has returned. -/
def lateWorker : List NgramLabel :=
  [.call (.enqueue [7, 8]), .dequeue, .call .synchronize, .insert, .call (.batchMatch [[7]])]

/-- The worker still has the sequence when the trie is read. -/
def holdingWorker : List NgramLabel :=
  [.call (.enqueue [7, 8]), .dequeue, .call .synchronize, .call (.batchMatch [[7]]), .insert]

/-- A rank's calls, and the tokens of the answers that count. -/
def NgramRank.view (r : NgramRank) : List NgramCall × List (Option (List Int)) :=
  (r.calls, r.agreed.map fun answer => answer.result.toOption.map NgramResult.token)

/-- What the client asked for in all three runs. -/
def oneRead : List NgramCall := [.enqueue [7, 8], .synchronize, .batchMatch [[7]]]

theorem worker_views :
    ((ngramMachine integerPlatform).guardedRun CaughtUp promptWorker (.start (threeTokenCache 4))).map NgramRank.view =
      some (oneRead, [some [7, 8, 0]]) ∧
    ((ngramMachine integerPlatform).guardedRun CaughtUp lateWorker (.start (threeTokenCache 4))).map NgramRank.view =
      some (oneRead, [some [7, 8, 0]]) ∧
    ((ngramMachine integerPlatform).run holdingWorker (.start (threeTokenCache 4))).map NgramRank.view =
      some (oneRead, [some [7, 0, 0]]) := by
  decide +kernel

end QCFuse.Guarantees
