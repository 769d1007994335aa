import QCFuse.Source.FlushCache

/-!
# Pools across resets

What is current stays current under every operation on the pools but the reset (`Evolves`).
-/

set_option autoImplicit false

namespace QCFuse.Guarantees.Flush

open QCFuse.Library QCFuse.Source.Flush
open QCFuse.Source.ScheduleBatch (gather)

/-! ## Slots of the current era -/

def Fresh (era : Nat) (slots : List Slot) : Prop := ∀ slot ∈ slots, slot.era = era

theorem Fresh.nil (era : Nat) : Fresh era [] := fun _ h => by cases h

theorem Fresh.append {era : Nat} {xs ys : List Slot} (hxs : Fresh era xs) (hys : Fresh era ys) :
    Fresh era (xs ++ ys) := by
  intro slot hslot
  cases List.mem_append.mp hslot with
  | inl h => exact hxs slot h
  | inr h => exact hys slot h

theorem Fresh.subset {era : Nat} {xs ys : List Slot} (hys : Fresh era ys) (h : xs ⊆ ys) :
    Fresh era xs := fun slot hslot => hys slot (h hslot)

theorem gather_subset {α : Type} (xs : List α) (indices : List Nat) : gather xs indices ⊆ xs := by
  intro x hx
  obtain ⟨i, _, hi⟩ := List.mem_filterMap.mp hx
  exact List.mem_of_getElem? hi

theorem slice_subset {α : Type} (xs : List α) (i : Nat) : (xs.drop i).take 1 ⊆ xs :=
  fun _ h => List.mem_of_mem_drop (List.mem_of_mem_take h)

theorem Fresh.gather {era : Nat} {xs : List Slot} (h : Fresh era xs) (indices : List Nat) :
    Fresh era (gather xs indices) := h.subset (gather_subset xs indices)

theorem fresh_alloc (p : Pools) (indices : List Nat) : Fresh p.era (p.alloc indices) := by
  intro slot hslot
  obtain ⟨_, _, rfl⟩ := List.mem_map.mp hslot
  rfl

theorem stale_touch {p : Pools} {slots : List Slot} (hstale : p.stale = false)
    (h : Fresh p.era slots) : (p.touch slots).stale = false := by
  simp only [Pools.touch, hstale, Bool.false_or, List.any_eq_false, bne_iff_ne, ne_eq,
    Decidable.not_not]
  exact h

section
variable (p : Pools) (r : ReqId) (slots : List Slot) (f : Req → Req) (choice : List Nat)

@[simp] theorem touch_reqs : (p.touch slots).reqs = p.reqs := rfl
@[simp] theorem touch_era : (p.touch slots).era = p.era := rfl
@[simp] theorem touch_tree : (p.touch slots).treeCache = p.treeCache := rfl
@[simp] theorem touch_row : (p.touch slots).row = p.row := rfl
@[simp] theorem insert_reqs : (p.insert slots).reqs = p.reqs := rfl
@[simp] theorem insert_era : (p.insert slots).era = p.era := rfl
@[simp] theorem insert_row : (p.insert slots).row = p.row := rfl
@[simp] theorem evict_reqs : (p.evict choice).reqs = p.reqs := rfl
@[simp] theorem evict_era : (p.evict choice).era = p.era := rfl
@[simp] theorem evict_row : (p.evict choice).row = p.row := rfl
@[simp] theorem modify_era : (p.modify r f).era = p.era := rfl
@[simp] theorem modify_self : (p.modify r f).reqs r = f (p.reqs r) := Function.update_self _ _ _
@[simp] theorem writeRow_reqs : (p.writeRow r slots).reqs = p.reqs := rfl
@[simp] theorem writeRow_era : (p.writeRow r slots).era = p.era := rfl
@[simp] theorem writeRow_tree : (p.writeRow r slots).treeCache = p.treeCache := rfl

theorem modify_other {r r' : ReqId} (h : r' ≠ r) : (p.modify r f).reqs r' = p.reqs r' :=
  Function.update_of_ne h _ _

end

/-! ## What every operation on the pools keeps -/

/-- The row of a request and all it points at were handed out since the last reset. -/
def Holds (p : Pools) (r : ReqId) : Prop :=
  (p.reqs r).reqPoolIdx.era = p.era ∧ Fresh p.era (p.row r)

structure Sound (p : Pools) : Prop where
  unstale : p.stale = false
  tree : Fresh p.era p.treeCache
  output : ∀ r, (p.reqs r).finishedOutput = true → (p.reqs r).finished = true

/-- The flags of a request that are never taken back. -/
structure Grows (req req' : Req) : Prop where
  arrived : req.arrived = true → req'.arrived = true
  finished : req.finished = true → req'.finished = true
  finishedOutput : req.finishedOutput = true → req'.finishedOutput = true

theorem Grows.rfl {req : Req} : Grows req req := ⟨id, id, id⟩

theorem Grows.trans {a b c : Req} (h : Grows a b) (h' : Grows b c) : Grows a c :=
  ⟨h'.arrived ∘ h.arrived, h'.finished ∘ h.finished, h'.finishedOutput ∘ h.finishedOutput⟩

/-- What an operation keeps of the requests that have arrived. -/
structure Evolves (p p' : Pools) : Prop where
  sound : Sound p'
  era : p'.era = p.era
  grows : ∀ r, (p.reqs r).arrived = true → Grows (p.reqs r) (p'.reqs r)
  holds : ∀ r, (p.reqs r).arrived = true → Holds p r → Holds p' r
  prefixed : ∀ r, (p.reqs r).arrived = true → Fresh p.era (p.reqs r).prefixIndices →
    Fresh p.era (p'.reqs r).prefixIndices

namespace Evolves

variable {p q s : Pools}

theorem refl (h : Sound p) : Evolves p p :=
  ⟨h, rfl, fun _ _ => .rfl, fun _ _ => id, fun _ _ => id⟩

theorem arrived (h : Evolves p q) {r : ReqId} (hr : (p.reqs r).arrived = true) :
    (q.reqs r).arrived = true := (h.grows r hr).arrived hr

theorem trans (h : Evolves p q) (h' : Evolves q s) : Evolves p s where
  sound := h'.sound
  era := h'.era.trans h.era
  grows := fun r hr => (h.grows r hr).trans (h'.grows r (h.arrived hr))
  holds := fun r hr hholds => h'.holds r (h.arrived hr) (h.holds r hr hholds)
  prefixed := by
    intro r hr hpre
    have hq := h.prefixed r hr hpre
    rw [← h.era] at hq ⊢
    exact h'.prefixed r (h.arrived hr) hq

/-- A loop over requests that each meet what its step asks for. -/
theorem foldl {α : Type} {f : Pools → α → Pools} {xs : List α} {Q : Pools → α → Prop}
    (hstep : ∀ p x, x ∈ xs → Sound p → Q p x → Evolves p (f p x))
    (hkeep : ∀ p p' x, Evolves p p' → Q p x → Q p' x)
    (hs : Sound p) (hq : ∀ x ∈ xs, Q p x) : Evolves p (xs.foldl f p) := by
  induction xs generalizing p with
  | nil => exact refl hs
  | cons x xs ih =>
    have hx := hstep p x List.mem_cons_self hs (hq x List.mem_cons_self)
    refine hx.trans (ih (fun p y hy => hstep p y (List.mem_cons_of_mem _ hy)) hx.sound ?_)
    exact fun y hy => hkeep _ _ _ hx (hq y (List.mem_cons_of_mem _ hy))

/-- What each step establishes for its request holds after the loop. -/
theorem foldl_all {α : Type} {f : Pools → α → Pools} {xs : List α} {Q R : Pools → α → Prop}
    (hstep : ∀ p x, Sound p → Q p x → Evolves p (f p x) ∧ R (f p x) x)
    (hkeep : ∀ p p' x, Evolves p p' → Q p x → Q p' x)
    (hkeep' : ∀ p p' x, Evolves p p' → R p x → R p' x)
    (hs : Sound p) (hq : ∀ x ∈ xs, Q p x) : ∀ x ∈ xs, R (xs.foldl f p) x := by
  induction xs generalizing p with
  | nil => exact fun _ h => by cases h
  | cons y ys ih =>
    obtain ⟨hy, hr⟩ := hstep p y hs (hq y List.mem_cons_self)
    have hrest : ∀ x ∈ ys, Q (f p y) x := fun x hx =>
      hkeep _ _ _ hy (hq x (List.mem_cons_of_mem _ hx))
    intro x hx
    cases List.mem_cons.mp hx with
    | inl heq =>
      subst heq
      have hfold : Evolves (f p x) (ys.foldl f (f p x)) :=
        foldl (fun p y _ hp hqy => (hstep p y hp hqy).1) hkeep hy.sound hrest
      exact hkeep' _ _ _ hfold hr
    | inr hmem => exact ih hy.sound hrest x hmem

theorem touch (hs : Sound p) {slots : List Slot} (h : Fresh p.era slots) :
    Evolves p (p.touch slots) :=
  ⟨⟨stale_touch hs.unstale h, hs.tree, hs.output⟩, rfl, fun _ _ => .rfl,
    fun _ _ => id, fun _ _ => id⟩

theorem insert (hs : Sound p) {slots : List Slot} (h : Fresh p.era slots) :
    Evolves p (p.insert slots) :=
  ⟨⟨hs.unstale, hs.tree.append h, hs.output⟩, rfl, fun _ _ => .rfl,
    fun _ _ => id, fun _ _ => id⟩

theorem evict (hs : Sound p) (choice : List Nat) : Evolves p (p.evict choice) := by
  have htouch := Evolves.touch hs (hs.tree.gather choice)
  refine htouch.trans ⟨⟨htouch.sound.unstale, ?_, hs.output⟩, rfl,
    fun _ _ => .rfl, fun _ _ => id, fun _ _ => id⟩
  exact hs.tree.subset (List.filter_subset_self _)

theorem modify (hs : Sound p) {r : ReqId} {f : Req → Req}
    (hidx : (f (p.reqs r)).reqPoolIdx = (p.reqs r).reqPoolIdx)
    (hprefixed : Fresh p.era (p.reqs r).prefixIndices →
      Fresh p.era (f (p.reqs r)).prefixIndices)
    (hgrows : Grows (p.reqs r) (f (p.reqs r)))
    (houtput : (f (p.reqs r)).finishedOutput = true → (f (p.reqs r)).finished = true) :
    Evolves p (p.modify r f) := by
  have hall : ∀ P : ReqId → Req → Prop, P r (f (p.reqs r)) → (∀ r', P r' (p.reqs r')) →
      ∀ r', P r' ((p.modify r f).reqs r') := by
    intro P hr hother r'
    by_cases h : r' = r
    · subst h
      rw [modify_self]
      exact hr
    · rw [modify_other p f h]
      exact hother r'
  have hidx' : ∀ r', ((p.modify r f).reqs r').reqPoolIdx = (p.reqs r').reqPoolIdx :=
    hall (fun r' req => req.reqPoolIdx = (p.reqs r').reqPoolIdx) hidx (fun _ => rfl)
  refine ⟨⟨hs.unstale, hs.tree, ?_⟩, rfl, ?_, ?_, ?_⟩
  · exact hall (fun _ req => req.finishedOutput = true → req.finished = true) houtput hs.output
  · exact fun r' _ => hall (fun r' req => Grows (p.reqs r') req) hgrows (fun _ => .rfl) r'
  · intro r' _ h
    unfold Holds Pools.row
    rw [hidx']
    exact h
  · exact fun r' _ => hall (fun r' req => Fresh p.era (p.reqs r').prefixIndices →
      Fresh p.era req.prefixIndices) hprefixed (fun _ => id) r'

theorem writeRow (hs : Sound p) {r : ReqId} {slots : List Slot} (h : Fresh p.era slots) :
    Evolves p (p.writeRow r slots) := by
  refine ⟨⟨hs.unstale, hs.tree, hs.output⟩, rfl, fun _ _ => .rfl, ?_,
    fun _ _ => id⟩
  intro r' _ hr'
  refine ⟨hr'.1, ?_⟩
  unfold Pools.row Pools.writeRow
  by_cases heq : (p.reqs r').reqPoolIdx.index = (p.reqs r).reqPoolIdx.index
  · simpa [heq] using h
  · simpa [heq, Pools.row] using hr'.2

/-! ## The operations -/

theorem initNextRoundInput (hs : Sound p) (r : ReqId) (choice : List Nat) :
    Evolves p (p.initNextRoundInput r choice) := by
  have hfound := hs.tree.gather choice
  have htouch := Evolves.touch hs hfound
  unfold Pools.initNextRoundInput
  refine htouch.trans (.modify htouch.sound rfl (fun _ => hfound) ⟨id, id, id⟩ ?_)
  exact hs.output r

theorem initNextRoundInput_prefixed (hs : Sound p) (r : ReqId) (choice : List Nat) :
    Fresh p.era ((p.initNextRoundInput r choice).reqs r).prefixIndices := by
  unfold Pools.initNextRoundInput
  rw [modify_self]
  exact hs.tree.gather choice

/-- A row is written anew from slots found in the tree. -/
theorem matchRow (hs : Sound p) {r : ReqId} {found rest pre : List Slot}
    (hfound : Fresh p.era found) (hrest : Fresh p.era rest) (hpre : Fresh p.era pre) :
    Evolves p (((p.touch found).writeRow r (found ++ rest)).modify r fun req =>
      { req with prefixIndices := pre }) := by
  have h₁ := Evolves.touch hs hfound
  have h₂ := h₁.trans (.writeRow (r := r) h₁.sound (hfound.append hrest))
  refine h₂.trans (.modify h₂.sound rfl (fun _ => hpre) ⟨id, id, id⟩ ?_)
  exact hs.output r

theorem cacheUnfinishedReq (args : ServerArgs) (c : CacheChoice) (hs : Sound p) {r : ReqId}
    (hr : Holds p r) : Evolves p (p.cacheUnfinishedReq args c r) := by
  unfold Pools.cacheUnfinishedReq
  split
  next => exact refl hs
  next =>
    have h₁ := Evolves.touch hs hr.2
    have h₂ := h₁.trans (.insert h₁.sound (hr.2.gather (c.inserted r)))
    have hfound := h₂.sound.tree.gather (c.matched r)
    have hrest := fun n => hr.2.subset (List.drop_subset n (p.row r))
    refine h₂.trans (matchRow h₂.sound hfound (hrest _) ?_)
    split
    next => exact hfound.append (hrest _)
    next => exact hfound

theorem cacheFinishedReq (c : CacheChoice) (isInsert : Bool) (hs : Sound p) {r : ReqId}
    (hr : Holds p r) : Evolves p (p.cacheFinishedReq c r isInsert) := by
  have hslots : Fresh p.era ((p.reqs r).reqPoolIdx :: p.row r) := by
    intro slot hslot
    cases List.mem_cons.mp hslot with
    | inl h => rw [h, hr.1]
    | inr h => exact hr.2 slot h
  have h₁ := Evolves.touch hs hslots
  refine h₁.trans (.insert h₁.sound ?_)
  split
  next => exact hr.2.gather (c.inserted r)
  next => exact .nil _

theorem releaseReq (c : CacheChoice) (evicted : List Nat) (hs : Sound p) {r : ReqId}
    (hr : Holds p r) : Evolves p (p.releaseReq c evicted r) := by
  have h₁ := cacheFinishedReq c false hs hr
  have h₂ := h₁.trans (.evict h₁.sound evicted)
  refine h₂.trans (.modify h₂.sound rfl (fun _ => .nil _) ⟨id, id, id⟩ ?_)
  exact h₂.sound.output r


theorem decodeReq (hs : Sound p) {r : ReqId} (hr : Holds p r) (slot : Nat) :
    Evolves p (p.decodeReq slot r) := .writeRow hs (hr.2.append (fresh_alloc p [slot]))

theorem appendToken (hs : Sound p) (c : LoopChoice) (r : ReqId) :
    Evolves p (appendToken p c r) := by
  refine .modify hs rfl id ⟨id, fun h => ?_, id⟩ (fun h => ?_)
  · simp [h]
  · simp [hs.output r h]

theorem streamOutput (hs : Sound p) (reqs : List ReqId) (skipReq : Option ReqId) :
    Evolves p (streamOutput p reqs skipReq) := by
  refine foldl (Q := fun _ _ => True) ?_ (fun _ _ _ _ => id) hs (fun _ _ => trivial)
  intro p r _ hs _
  split
  next => exact refl hs
  next =>
    refine .modify hs rfl id ⟨id, id, fun h => ?_⟩ (fun h => ?_)
    · simp [h]
    · cases Bool.or_eq_true_iff.mp h with
      | inl h => exact hs.output r h
      | inr h => exact h

end Evolves

/-- A launched request, with a row and slots that are current. -/
structure Sent (p : Pools) (r : ReqId) : Prop where
  arrived : (p.reqs r).arrived = true
  holds : Holds p r

theorem Sent.evolves {p p' : Pools} {r : ReqId} (hr : Sent p r) (h : Evolves p p') : Sent p' r :=
  ⟨h.arrived hr.arrived, h.holds r hr.arrived hr.holds⟩

/-- A prefill gives a request a row of its own, written with current slots only. -/
theorem extendReq_evolves {p : Pools} (hs : Sound p) {r : ReqId}
    (harrived : (p.reqs r).arrived = true) (hpre : Fresh p.era (p.reqs r).prefixIndices)
    (poolIdx : Nat) (slots : List Nat) :
    Evolves p (p.extendReq poolIdx slots r) ∧ Sent (p.extendReq poolIdx slots r) r := by
  have hrow := hpre.append (fresh_alloc p slots)
  have htouch := stale_touch hs.unstale hpre
  have hself : (p.extendReq poolIdx slots r).reqs r =
      { p.reqs r with reqPoolIdx := ⟨poolIdx, p.era⟩, isRetracted := false } := by
    simp [Pools.extendReq]
  have hother : ∀ r', r' ≠ r → (p.extendReq poolIdx slots r).reqs r' = p.reqs r' :=
    fun r' h => by simp [Pools.extendReq, modify_other _ _ h]
  have hrows : ∀ i, Fresh p.era (p.reqToToken i) ∨ i = poolIdx →
      Fresh p.era ((p.extendReq poolIdx slots r).reqToToken i) := by
    intro i hi
    unfold Pools.extendReq Pools.writeRow
    by_cases h : i = poolIdx
    · simpa [h] using hrow
    · simpa [h, Pools.modify, Pools.touch] using hi.resolve_right h
  have hsent : Sent (p.extendReq poolIdx slots r) r := by
    refine ⟨by rw [hself]; exact harrived, by rw [hself]; rfl, ?_⟩
    unfold Pools.row
    rw [hself]
    exact hrows poolIdx (.inr rfl)
  refine ⟨⟨⟨htouch, hs.tree, ?_⟩, rfl, ?_, ?_, ?_⟩, hsent⟩
  · intro r'
    by_cases h : r' = r
    · subst h
      rw [hself]
      exact hs.output r'
    · rw [hother r' h]
      exact hs.output r'
  · intro r' _
    by_cases h : r' = r
    · subst h
      rw [hself]
      exact ⟨id, id, id⟩
    · rw [hother r' h]
      exact .rfl
  · intro r' _ hr'
    by_cases h : r' = r
    · subst h
      exact hsent.holds
    · unfold Holds Pools.row
      rw [hother r' h]
      exact ⟨hr'.1, hrows _ (.inl hr'.2)⟩
  · intro r' _
    by_cases h : r' = r
    · subst h
      rw [hself]
      exact id
    · rw [hother r' h]
      exact id

/-! ## Results -/

/-- A launched batch: its requests hold current slots, and so does what it allocated. -/
structure Launched (p : Pools) (batch : ScheduleBatch) : Prop where
  sent : ∀ r ∈ batch.reqs, Sent p r
  slots : batch.reqs ≠ [] → Fresh p.era batch.outCacheLoc

theorem Launched.evolves {p p' : Pools} {batch : ScheduleBatch} (hb : Launched p batch)
    (h : Evolves p p') : Launched p' batch :=
  ⟨fun r hr => (hb.sent r hr).evolves h, fun hne => h.era ▸ hb.slots hne⟩

theorem runBatch_evolves {p : Pools} (hs : Sound p) {batch : ScheduleBatch}
    (hb : Launched p batch) (hslots : Fresh p.era batch.outCacheLoc) :
    Evolves p (runBatch p batch) := by
  refine .touch hs (Fresh.append ?_ hslots)
  intro slot hslot
  obtain ⟨r, hr, hmem⟩ := List.mem_flatMap.mp hslot
  exact (hb.sent r hr).holds.2 slot hmem

theorem processDecodeReq_evolves (args : ServerArgs) (c : LoopChoice) {batch : ScheduleBatch}
    {p : Pools} (hs : Sound p) {entry : ReqId × Nat} (hr : Sent p entry.1)
    (hslots : Fresh p.era batch.outCacheLoc) :
    Evolves p (processDecodeReq args c batch p entry) := by
  unfold processDecodeReq
  dsimp only
  split
  next =>
    split
    next => exact .touch hs (hslots.subset (slice_subset _ _))
    next => exact .refl hs
  next =>
    split
    next => exact .refl hs
    next =>
      have happend := Evolves.appendToken hs c entry.1
      split
      next => exact happend.trans (.cacheFinishedReq _ _ happend.sound (hr.evolves happend).holds)
      next => exact happend

theorem processPrefillReq_evolves (args : ServerArgs) (c : LoopChoice) {batch : ScheduleBatch}
    {p : Pools} (skipReq : Option ReqId) (hs : Sound p) {entry : ReqId × Nat}
    (hr : Sent p entry.1) (hslots : Fresh p.era batch.outCacheLoc) :
    Evolves p (processPrefillReq args c batch (p, skipReq) entry).1 := by
  unfold processPrefillReq
  dsimp only
  split
  next => exact .touch hs (hr.holds.2.gather _)
  next =>
    split
    next => exact .touch hs (hslots.subset (slice_subset _ _))
    next =>
      split
      next => exact .refl hs
      next =>
        split
        next =>
          have happend := Evolves.appendToken hs c entry.1
          have hr' := (hr.evolves happend).holds
          split
          next => exact happend.trans (.cacheFinishedReq _ _ happend.sound hr')
          next =>
            split
            next => exact happend
            next => exact happend.trans (.cacheUnfinishedReq _ _ happend.sound hr')
        next =>
          dsimp only
          refine .modify hs rfl id ⟨id, id, id⟩ ?_
          exact hs.output _

/-- The pools after the loop over a prefill batch do not depend on the request to be skipped. -/
theorem processPrefill_pools (args : ServerArgs) (c : LoopChoice) (batch : ScheduleBatch)
    (entries : List (ReqId × Nat)) (p : Pools) :
    (entries.foldl (processPrefillReq args c batch) (p, none)).1 =
      entries.foldl (fun p entry => (processPrefillReq args c batch (p, none) entry).1) p := by
  refine (List.foldl_hom Prod.fst ?_).symm
  intro acc entry
  unfold processPrefillReq
  dsimp only
  split_ifs <;> rfl

theorem processBatchResult_evolves (args : ServerArgs) (c : LoopChoice) {p : Pools}
    (hs : Sound p) {batch : ScheduleBatch} (hb : Launched p batch) :
    Evolves p (processBatchResult args c p batch) := by
  have hentry : ∀ entry ∈ batch.reqs.zipIdx, Launched p batch ∧ entry.1 ∈ batch.reqs :=
    fun entry h => ⟨hb, List.fst_mem_of_mem_zipIdx h⟩
  have hkeep : ∀ (p p' : Pools) (entry : ReqId × Nat), Evolves p p' →
      Launched p batch ∧ entry.1 ∈ batch.reqs → Launched p' batch ∧ entry.1 ∈ batch.reqs :=
    fun _ _ _ h hq => ⟨hq.1.evolves h, hq.2⟩
  have hdecode : Evolves p (batch.reqs.zipIdx.foldl (processDecodeReq args c batch) p) :=
    .foldl (fun p entry _ hp hq => processDecodeReq_evolves args c hp (hq.1.sent _ hq.2)
      (hq.1.slots (List.ne_nil_of_mem hq.2))) hkeep hs hentry
  have hprefill : Evolves p
      (batch.reqs.zipIdx.foldl (processPrefillReq args c batch) (p, none)).1 := by
    rw [processPrefill_pools]
    exact .foldl (fun p entry _ hp hq => processPrefillReq_evolves args c none hp
      (hq.1.sent _ hq.2) (hq.1.slots (List.ne_nil_of_mem hq.2))) hkeep hs hentry
  unfold processBatchResult
  split
  next => exact hdecode.trans (.streamOutput hdecode.sound _ _)
  next => exact hprefill.trans (.streamOutput hprefill.sound _ _)
  next => exact hprefill.trans (.streamOutput hprefill.sound _ _)
  next => exact .refl hs

end QCFuse.Guarantees.Flush
