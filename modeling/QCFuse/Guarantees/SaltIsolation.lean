import QCFuse.Guarantees.KvRequests
import QCFuse.Source.SaltedRequest

/-!
# Namespaces of clients

Which client a slot was computed for, along every run of admissions, allocations, insertions and
evictions. Tree and requests keep to the namespace of the key a request was made with, and that key
is the LoRA id alone.
-/

set_option autoImplicit false

namespace QCFuse.Guarantees

open QCFuse.Library QCFuse.Source

/-! ## Requests of clients -/

/-- What a client gave for a prompt. -/
structure ClientKey where
  extraKey : Option String
  loraId : Option String
  deriving DecidableEq

/-- The key for prompt `i` of a call: the string, or the one of the prompt in the list. -/
def clientKey (obj : GenerateReqInput) (i : Nat) (prompt : PromptInput) : Option ClientKey :=
  match obj.extraKey with
  | none => some ⟨none, prompt.loraId⟩
  | some (.one extraKey) => some ⟨some extraKey, prompt.loraId⟩
  | some (.each extraKeys) => if obj.isSingle then none else (extraKeys[i]?).map fun extraKey => ⟨some extraKey, prompt.loraId⟩

/-- The extra key under which the request of such a client is matched and inserted. -/
def ClientKey.radixKey (key : ClientKey) : Option String :=
  handleGenerateRequest (createTokenizedObject ⟨key.loraId, key.extraKey.map .one⟩)

/-- Prompt `i` of a call on its way to the scheduler, and what the client gave for it. -/
def arriving (call : GenerateReqInput) (registry : LoraRegistry) (i : Nat) : Option (PromptInput × ClientKey) := do
  let obj ← call.normalizeBatchAndArguments.acquire registry
  let prompt ← obj.prompt i
  let key ← clientKey obj i prompt
  return (prompt, key)

/-- The requests in the cache with the clients they are of, the clients seen so far, and for which
client a slot was computed last. -/
structure SaltedState where
  kv : KvState
  owner : Nat → Option ClientKey
  sent : List ClientKey
  computedFor : Int → Option ClientKey

namespace SaltedState

/-- The slots that requests get are computed for their clients. -/
def granted (s : SaltedState) (kv : KvState) : SaltedState :=
  { s with
    kv
    computedFor := fun slot =>
      match (s.kv.reqs.zip kv.reqs).find? fun (r, r') => slot ∈ r'.slots.drop r.slots.length with
      | some (r, _) => s.owner r.rid
      | none => s.computedFor slot }

/-- Prompt `i` of a call arrives and is admitted. -/
def arrive (s : SaltedState) (call : GenerateReqInput) (registry : LoraRegistry) (i rid : Nat)
    (originInputIds outputIds : List Nat) (blendStyle : Option BlendStyle) (maxPrefixLen extendLen : Nat)
    (now : Int) : Option SaltedState := do
  let (prompt, key) ← arriving call registry i
  let kv ← s.kv.admitReq rid originInputIds outputIds (handleGenerateRequest (createTokenizedObject prompt))
    blendStyle maxPrefixLen extendLen now
  return { s with kv, owner := fun other => if other = rid then some key else s.owner other, sent := key :: s.sent }

end SaltedState

inductive SaltedOp where
  | arrive (call : GenerateReqInput) (registry : LoraRegistry) (i rid : Nat) (originInputIds outputIds : List Nat)
      (blendStyle : Option BlendStyle) (maxPrefixLen extendLen : Nat) (now : Int)
  | cache (op : KvOp)

def saltedMachine : Machine SaltedState SaltedOp where
  step
    | .arrive call registry i rid originInputIds outputIds blendStyle maxPrefixLen extendLen now, s =>
      s.arrive call registry i rid originInputIds outputIds blendStyle maxPrefixLen extendLen now
    | .cache (.admitReq ..), _ => none
    | .cache (.allocForExtend mem), s => (s.kv.allocForExtend mem).map s.granted
    | .cache (.allocForDecode mem rids), s => (s.kv.allocForDecode mem rids).map s.granted
    | .cache op, s => (kvMachine.step op s.kv).map fun kv => { s with kv }

def SaltedState.start (kv : KvState) : SaltedState := ⟨kv, fun _ => none, [], fun _ => none⟩

/-- Clients that use the same adapter give the same extra key; a request with a blend style keeps
apart from the tree. -/
def SaltsAgree (s : SaltedState) : SaltedOp → Prop
  | .arrive call registry i rid originInputIds outputIds blendStyle maxPrefixLen extendLen now =>
    ∀ entry ∈ arriving call registry i,
      (∀ other ∈ s.sent, other.loraId = entry.2.loraId → other.extraKey = entry.2.extraKey) ∧
      BlendApart s.kv (.admitReq rid originInputIds outputIds entry.2.radixKey blendStyle maxPrefixLen extendLen now)
  | .cache op => BlendApart s.kv op

instance (s : SaltedState) (op : SaltedOp) : Decidable (SaltsAgree s op) := by
  cases op <;>
  · unfold SaltsAgree
    infer_instance

/-- The prefix a request is given was computed for its client's key, and different keys have
different namespaces. -/
structure SaltsIsolated (s : SaltedState) : Prop where
  prefixes : ∀ r ∈ s.kv.reqs, ∃ key, s.owner r.rid = some key ∧
    ∀ slot ∈ r.req.prefixIndices, s.computedFor slot = some key
  namespaces : ∀ key ∈ s.sent, ∀ other ∈ s.sent, key.radixKey = other.radixKey → key = other

/-- The namespace of a client is its adapter. -/
@[simp] theorem radixKey_eq (key : ClientKey) : key.radixKey = key.loraId := by
  unfold ClientKey.radixKey handleGenerateRequest createTokenizedObject reqExtraKey
  cases key.loraId with
  | none => rfl
  | some loraId =>
    show some ("" ++ loraId) = some loraId
    rw [String.empty_append]

theorem radixKey_of_arriving {call : GenerateReqInput} {registry : LoraRegistry} {i : Nat} {prompt : PromptInput}
    {key : ClientKey} (h : arriving call registry i = some (prompt, key)) :
    handleGenerateRequest (createTokenizedObject prompt) = key.radixKey := by
  obtain ⟨obj, -, h⟩ := Option.bind_eq_some_iff.mp h
  obtain ⟨prompt', -, h⟩ := Option.bind_eq_some_iff.mp h
  obtain ⟨key', h, heq⟩ := Option.bind_eq_some_iff.mp h
  cases heq
  have hid : key.loraId = prompt.loraId := by
    unfold clientKey at h
    split at h
    · cases h
      rfl
    · cases h
      rfl
    · split at h
      · cases h
      · obtain ⟨extraKey, -, rfl⟩ := Option.map_eq_some_iff.mp h
        rfl
  rw [ClientKey.radixKey, handleGenerateRequest, handleGenerateRequest, createTokenizedObject, createTokenizedObject, hid]

/-! ## Slots of a namespace -/

/-- The slots stored under an extra key all satisfy `good` of it. -/
def TreeSlots (good : Option String → Int → Prop) (c : RadixCache Nat) : Prop :=
  ∀ extraKey p v, TreeStores c.children extraKey p v → ∀ slot ∈ v, good extraKey slot

section Tree

variable {good : Option String → Int → Prop} {c : RadixCache Nat} {holds others : List Nat} {r : InFlight}

theorem TreeSlots.matchPrefix (h : TreeSlots good c) (hinv : RadixInv holds c) (now : Int) (key : RadixKey Nat) :
    TreeSlots good (c.matchPrefix now key).2 := by
  intro extraKey p v hstored
  exact h extraKey p v (((matchPrefix_exact hinv now key).unchanged extraKey p v).mp hstored)

theorem TreeSlots.matched (h : TreeSlots good c) (hinv : RadixInv holds c) (now : Int) (key : RadixKey Nat) :
    ∀ slot ∈ (c.matchPrefix now key).1.deviceIndices, good key.extraKey slot := by
  intro slot hslot
  exact h _ _ _ ((matchPrefix_exact hinv now key).stored (List.ne_nil_of_mem hslot)) slot hslot

theorem TreeSlots.incLockRef (h : TreeSlots good c) (node : Nat) : TreeSlots good (c.incLockRef node) := by
  intro extraKey p v hstored
  exact h extraKey p v ((stored_mapPath _ 1 extraKey p v).mp hstored)

theorem TreeSlots.decLockRef (h : TreeSlots good c) (node : Nat) : TreeSlots good (c.decLockRef node) := by
  intro extraKey p v hstored
  exact h extraKey p v ((stored_mapPath _ (-1) extraKey p v).mp hstored)

theorem TreeSlots.evict (h : TreeSlots good c) (hinv : RadixInv holds c) (numTokens : Int) :
    TreeSlots good (c.evict numTokens).2 := by
  intro extraKey p v hstored
  exact h extraKey p v ((evict_exact hinv numTokens).stored extraKey p v hstored)

theorem TreeSlots.insert (h : TreeSlots good c) (hinv : RadixInv holds c) (now : Int) {key : RadixKey Nat}
    {value : List Int} (halign : c.pageSize ∣ key.len)
    (hvalue : ∀ slot ∈ value.drop (c.insert now key value).1, good key.extraKey slot) :
    TreeSlots good (c.insert now key value).2 := by
  intro extraKey p v hstored slot hslot
  have hexact : InsertExact c key value _ _ := insert_exact hinv now halign
  obtain ⟨s, hlen, hold, hstores⟩ := hexact.stored
  rcases (hstores extraKey p v).mp hstored with hbefore | ⟨rfl, -, -, rfl⟩
  · exact h extraKey p v hbefore slot hslot
  · rcases List.mem_append.mp (List.mem_of_mem_take hslot) with hs | hnew
    · have hpos : 0 < (c.insert now key value).1 := hlen ▸ List.length_pos_of_mem hs
      exact h _ _ _ (hold hpos) slot hs
    · exact hvalue slot hnew

/-- What a request inserts behind what is present is its own. -/
theorem TreeSlots.insertOwn (h : TreeSlots good c) (hinv : RadixInv holds c) (hr : ReqInv c r) (now : Int)
    {key : RadixKey Nat} {value : List Int} (hextra : key.extraKey = r.req.extraKey) (halign : c.pageSize ∣ key.len)
    (hpre : r.req.fillIds.take r.req.lastMatchedPrefixLen <+: key.tokenIds) (hvalue : value <+: r.slots)
    (hown : ∀ slot ∈ privateSlots r, good r.req.extraKey slot) : TreeSlots good (c.insert now key value).2 := by
  refine h.insert hinv now halign fun slot hslot => ?_
  have hpresent : r.req.lastMatchedPrefixLen ≤ (c.insert now key value).1 :=
    hr.path.present hinv hr.matched_dvd (hr.matched_le.trans hr.known) now hextra halign hpre
  rw [hextra]
  obtain ⟨rest, hrest⟩ := hvalue
  refine hown slot ?_
  rw [privateSlots, ← hrest]
  have hmem := List.mem_append_left (rest.drop (r.req.lastMatchedPrefixLen - value.length))
    (List.drop_subset_drop_left value hpresent hslot)
  rwa [← List.drop_append] at hmem

end Tree

/-- The slot was computed for a client of that namespace. -/
def InNamespace (computedFor : Int → Option ClientKey) (extraKey : Option String) (slot : Int) : Prop :=
  ∃ key, computedFor slot = some key ∧ key.radixKey = extraKey

structure SaltInv (total : Nat) (s : SaltedState) : Prop where
  kv : KvInv total s.kv
  tree : TreeSlots (InNamespace s.computedFor) s.kv.cache
  own : ∀ r ∈ s.kv.reqs, ∀ slot ∈ privateSlots r, InNamespace s.computedFor r.req.extraKey slot
  tail : ∀ r ∈ s.kv.reqs, r.req.prefixIndices.drop r.req.lastMatchedPrefixLen ⊆ privateSlots r
  owner : ∀ r ∈ s.kv.reqs, ∃ key ∈ s.sent, s.owner r.rid = some key ∧ key.radixKey = r.req.extraKey
  sent : ∀ slot key, s.computedFor slot = some key → key ∈ s.sent
  apart : ∀ key ∈ s.sent, ∀ other ∈ s.sent, key.radixKey = other.radixKey → key = other

theorem SaltInv.isolated {total : Nat} {s : SaltedState} (h : SaltInv total s) : SaltsIsolated s := by
  refine ⟨fun r hr => ?_, h.apart⟩
  obtain ⟨key, hkey, howner, hradix⟩ := h.owner r hr
  refine ⟨key, howner, fun slot hslot => ?_⟩
  have hspace : InNamespace s.computedFor r.req.extraKey slot := by
    rw [← List.take_append_drop r.req.lastMatchedPrefixLen r.req.prefixIndices] at hslot
    rcases List.mem_append.mp hslot with hmatched | htail
    · rcases (h.kv.each r hr).path with ⟨hzero, -⟩ | hpath
      · rw [hzero] at hmatched
        cases hmatched
      · exact h.tree _ _ _ (hpath.stored h.kv.radix.shaped) slot hmatched
    · exact h.own r hr slot (h.tail r hr htail)
  obtain ⟨other, hcomputed, hother⟩ := hspace
  rw [hcomputed, h.apart key hkey other (h.sent slot other hcomputed) (hradix.trans hother.symm)]

/-! ## Slots have one owner -/

section Owners

variable {total : Nat} {s : KvState} {r r' : InFlight} {slot : Int}

theorem TreeStores.node_of_slot {f : Children Nat} {extraKey : Option String} {p : List Nat} {v : List Int}
    (h : TreeStores f extraKey p v) (hslot : slot ∈ v) : ∃ node ∈ f.nodes, slot ∈ node.value := by
  induction f generalizing p v with
  | nil => exact h.elim
  | cons childKey node below rest ihb ihr =>
    rw [Forest.nodes]
    rcases h with ⟨-, ⟨-, -, rfl⟩ | ⟨p', v', -, rfl, hbelow⟩⟩ | hrest
    · exact ⟨node, List.mem_cons_self, List.mem_of_mem_take hslot⟩
    · rcases List.mem_append.mp hslot with hhere | hdeep
      · exact ⟨node, List.mem_cons_self, hhere⟩
      · obtain ⟨other, hother, hvalue⟩ := ihb hbelow hdeep
        exact ⟨other, List.mem_cons_of_mem _ (List.mem_append_left _ hother), hvalue⟩
    · obtain ⟨other, hother, hvalue⟩ := ihr hrest hslot
      exact ⟨other, List.mem_cons_of_mem _ (List.mem_append_right _ hother), hvalue⟩

theorem KvInv.own_not_stored (h : KvInv total s) (hr : r ∈ s.reqs) (hslot : slot ∈ privateSlots r)
    {extraKey : Option String} {p : List Nat} {v : List Int} (hstored : TreeStores s.cache.children extraKey p v) :
    slot ∉ v := by
  intro hv
  have hP := s.cache.pageSize_pos
  obtain ⟨node, hnode, hvalue⟩ := hstored.node_of_slot hv
  have htree : slot / (s.cache.pageSize : Int) ∈ treePages s.cache.pageSize s.cache.children :=
    List.mem_flatMap.mpr ⟨node.value, List.mem_map_of_mem hnode, (h.nodes node hnode).page_mem hP hvalue⟩
  have hown : slot / (s.cache.pageSize : Int) ∈ s.reqs.flatMap (privatePages s.cache.pageSize) :=
    List.mem_flatMap.mpr ⟨r, hr, (h.each r hr).pages.page_mem hP hslot⟩
  have hnodup := h.nodup
  rw [ownedPages] at hnodup
  exact (List.nodup_append'.mp (List.nodup_append'.mp hnodup).2.1).2.2 htree hown

theorem KvInv.own_unique (h : KvInv total s) (hr : r ∈ s.reqs) (hr' : r' ∈ s.reqs) (hslot : slot ∈ privateSlots r)
    (hslot' : slot ∈ privateSlots r') : r = r' := by
  by_contra hne
  have hP := s.cache.pageSize_pos
  have hnodup := h.nodup
  rw [ownedPages] at hnodup
  have hapart := (List.nodup_flatMap.mp (List.nodup_append'.mp (List.nodup_append'.mp hnodup).2.1).2.1).2
  have hsymm : Std.Symm (Function.onFun List.Disjoint (privatePages s.cache.pageSize)) := ⟨fun _ _ hd => hd.symm⟩
  exact hapart.forall hr hr' hne ((h.each r hr).pages.page_mem hP hslot) ((h.each r' hr').pages.page_mem hP hslot')

end Owners

/-! ## Allocations -/

/-- A request with more slots behind those it has. -/
structure Grown (r r' : InFlight) : Prop where
  rid : r'.rid = r.rid
  extraKey : r'.req.extraKey = r.req.extraKey
  prefixIndices : r'.req.prefixIndices = r.req.prefixIndices
  matched : r'.req.lastMatchedPrefixLen = r.req.lastMatchedPrefixLen
  slots : ∃ given, r'.slots = r.slots ++ given

theorem grown_writeSlots {want : InFlight → Nat} {write : InFlight → List Int → InFlight} {reqs : List InFlight}
    (hwrite : ∀ r ∈ reqs, want r ≠ 0 → ∀ slots, write r slots = extended r slots) (out : List Int) :
    List.Forall₂ Grown reqs (writeSlots want write out reqs) := by
  induction reqs generalizing out with
  | nil => exact .nil
  | cons r reqs ih =>
    refine .cons ?_ (ih (fun q hq => hwrite q (List.mem_cons_of_mem _ hq)) _)
    split
    next => exact ⟨rfl, rfl, rfl, rfl, [], (List.append_nil _).symm⟩
    next hwant =>
      rw [hwrite r List.mem_cons_self hwant]
      exact ⟨rfl, rfl, rfl, rfl, _, rfl⟩

theorem Grown.own {r r' : InFlight} (h : Grown r r') (hle : r.req.lastMatchedPrefixLen ≤ r.slots.length) :
    privateSlots r' = privateSlots r ++ r'.slots.drop r.slots.length := by
  obtain ⟨given, hslots⟩ := h.slots
  rw [privateSlots, privateSlots, h.matched, hslots, List.drop_append_of_le_length hle, List.drop_left]

section Grants

variable {total : Nat} {s : SaltedState} {kv : KvState}

theorem exists_zip {α β : Type} {R : α → β → Prop} {as : List α} {bs : List β} (h : List.Forall₂ R as bs) {b : β}
    (hb : b ∈ bs) : ∃ a, (a, b) ∈ as.zip bs := by
  induction h with
  | nil => cases hb
  | cons _ _ ih =>
    rcases List.mem_cons.mp hb with rfl | hb
    · exact ⟨_, List.mem_cons_self⟩
    · obtain ⟨a, ha⟩ := ih hb
      exact ⟨a, List.mem_cons_of_mem _ ha⟩

/-- Who gets a slot has it as its own. -/
theorem SaltInv.grown_own (h : SaltInv total s) (hgrown : List.Forall₂ Grown s.kv.reqs kv.reqs) {r r' : InFlight}
    (hpair : (r, r') ∈ s.kv.reqs.zip kv.reqs) :
    Grown r r' ∧ r ∈ s.kv.reqs ∧ privateSlots r' = privateSlots r ++ r'.slots.drop r.slots.length := by
  have hgrow := (List.forall₂_iff_zip.mp hgrown).2 hpair
  have hr := (List.of_mem_zip hpair).1
  exact ⟨hgrow, hr, hgrow.own ((h.kv.each r hr).matched_le.trans (h.kv.each r hr).within)⟩

theorem SaltInv.granted (h : SaltInv total s) (hkv : KvInv total kv)
    (htree : TreeSlots (InNamespace s.computedFor) kv.cache) (hgrown : List.Forall₂ Grown s.kv.reqs kv.reqs) :
    SaltInv total (s.granted kv) := by
  -- a slot that was granted is one of the request's own afterwards
  have hfound : ∀ {slot r r'}, (s.kv.reqs.zip kv.reqs).find? (fun (r, r') => slot ∈ r'.slots.drop r.slots.length) =
      some (r, r') → (r, r') ∈ s.kv.reqs.zip kv.reqs ∧ slot ∈ privateSlots r' := by
    intro slot r r' hfind
    have hpair := List.mem_of_find?_eq_some hfind
    have hslot := List.find?_some hfind
    refine ⟨hpair, ?_⟩
    rw [(h.grown_own hgrown hpair).2.2]
    exact List.mem_append_right _ (of_decide_eq_true hslot)
  have hown : ∀ r' ∈ kv.reqs, ∀ slot ∈ privateSlots r', InNamespace (s.granted kv).computedFor r'.req.extraKey slot := by
    intro r' hr' slot hslot
    obtain ⟨r, hpair⟩ := exists_zip hgrown hr'
    obtain ⟨hgrow, hr, heq⟩ := h.grown_own hgrown hpair
    rw [hgrow.extraKey]
    unfold InNamespace SaltedState.granted
    dsimp only
    split
    next q q' hfind =>
      obtain ⟨hother, hmine⟩ := hfound hfind
      obtain rfl := hkv.own_unique (List.of_mem_zip hother).2 hr' hmine hslot
      obtain ⟨key, -, howner, hradix⟩ := h.owner r hr
      refine ⟨key, ?_, hradix⟩
      rw [← (h.grown_own hgrown hother).1.rid, hgrow.rid, howner]
    next hfind =>
      refine h.own r hr slot ?_
      rw [heq] at hslot
      refine (List.mem_append.mp hslot).resolve_right fun hnew => ?_
      exact List.find?_eq_none.mp hfind _ hpair (decide_eq_true hnew)
  refine ⟨hkv, ?_, hown, ?_, ?_, ?_, h.apart⟩
  · intro extraKey p v hstored slot hslot
    unfold InNamespace SaltedState.granted
    dsimp only
    split
    next r r' hfind =>
      obtain ⟨hpair, hmine⟩ := hfound hfind
      exact absurd hslot (hkv.own_not_stored (List.of_mem_zip hpair).2 hmine hstored)
    next => exact htree extraKey p v hstored slot hslot
  · intro r' hr' slot hslot
    obtain ⟨r, hpair⟩ := exists_zip hgrown hr'
    obtain ⟨hgrow, hr, heq⟩ := h.grown_own hgrown hpair
    rw [hgrow.prefixIndices, hgrow.matched] at hslot
    rw [heq]
    exact List.mem_append_left _ (h.tail r hr hslot)
  · intro r' hr'
    obtain ⟨r, hpair⟩ := exists_zip hgrown hr'
    obtain ⟨hgrow, hr, -⟩ := h.grown_own hgrown hpair
    rw [hgrow.extraKey]
    exact (congrArg s.owner hgrow.rid) ▸ h.owner r hr
  · intro slot key hcomputed
    unfold SaltedState.granted at hcomputed
    dsimp only at hcomputed
    split at hcomputed
    next r r' hfind =>
      obtain ⟨other, hsent, howner, -⟩ := h.owner r (List.of_mem_zip (hfound hfind).1).1
      rw [hcomputed] at howner
      cases howner
      exact hsent
    next => exact h.sent slot key hcomputed

theorem TreeSlots.evictFromTreeCache {good : Option String → Int → Prop} {kv : KvState} (h : TreeSlots good kv.cache)
    (hinv : KvInv total kv) (numTokens : Nat) : TreeSlots good (kv.evictFromTreeCache numTokens).cache := by
  unfold KvState.evictFromTreeCache
  split
  · exact h.evict hinv.radix numTokens
  · exact h

theorem SaltInv.allocForExtend (h : SaltInv total s) (mem : KernelMemory) (hstep : s.kv.allocForExtend mem = some kv) :
    SaltInv total (s.granted kv) := by
  have hkv := h.kv.allocForExtend mem hstep
  rw [allocForExtend_eq] at hstep
  obtain ⟨out, -, rfl⟩ := Option.map_eq_some_iff.mp hstep
  exact h.granted hkv (h.tree.evictFromTreeCache h.kv _)
    (grown_writeSlots (fun r hr hwant => (extend_asks h.kv r hr hwant).write) out)

theorem SaltInv.allocForDecode (h : SaltInv total s) (mem : KernelMemory) (rids : List Nat)
    (hstep : s.kv.allocForDecode mem rids = some kv) : SaltInv total (s.granted kv) := by
  have hkv := h.kv.allocForDecode mem rids hstep
  rw [allocForDecode_eq] at hstep
  obtain ⟨out, -, rfl⟩ := Option.map_eq_some_iff.mp hstep
  exact h.granted hkv (h.tree.evictFromTreeCache h.kv _)
    (grown_writeSlots (fun r hr hwant => (decode_asks h.kv rids r hr hwant).write) out)

end Grants

/-! ## Steps of requests -/

/-- A request that has no slots but those it had. -/
structure GoesOn (r r' : InFlight) : Prop where
  rid : r'.rid = r.rid
  extraKey : r'.req.extraKey = r.req.extraKey
  own : privateSlots r' ⊆ privateSlots r
  tail : r'.req.prefixIndices.drop r'.req.lastMatchedPrefixLen ⊆ privateSlots r'

section Steps

variable {total : Nat} {s : SaltedState} {kv : KvState} {good : Option String → Int → Prop} {c : RadixCache Nat}
  {others : List Nat} {rid : Nat} {r : InFlight}

theorem SaltInv.moved (h : SaltInv total s) (hkv : KvInv total kv)
    (htree : TreeSlots (InNamespace s.computedFor) kv.cache)
    (hreqs : ∀ r' ∈ kv.reqs, ∃ r ∈ s.kv.reqs, GoesOn r r') : SaltInv total { s with kv } := by
  refine ⟨hkv, htree, fun r' hr' slot hslot => ?_, fun r' hr' => ?_, fun r' hr' => ?_, h.sent, h.apart⟩
  · obtain ⟨r, hr, hgoes⟩ := hreqs r' hr'
    rw [hgoes.extraKey]
    exact h.own r hr slot (hgoes.own hslot)
  · obtain ⟨r, hr, hgoes⟩ := hreqs r' hr'
    exact hgoes.tail
  · obtain ⟨r, hr, hgoes⟩ := hreqs r' hr'
    rw [hgoes.extraKey]
    exact (congrArg s.owner hgoes.rid) ▸ h.owner r hr

theorem SaltInv.same (h : SaltInv total s) (hr : r ∈ s.kv.reqs) : GoesOn r r :=
  ⟨rfl, rfl, List.Subset.refl _, h.tail r hr⟩

/-- One request goes on and the others stay. -/
theorem SaltInv.put (h : SaltInv total s) {r' : InFlight} (hr : r ∈ s.kv.reqs) (hgoes : GoesOn r r') {c : RadixCache Nat}
    {a : PagedAllocator} (hkv : KvInv total (({ s.kv with cache := c, pool := a } : KvState).put r'))
    (htree : TreeSlots (InNamespace s.computedFor) c) :
    SaltInv total { s with kv := ({ s.kv with cache := c, pool := a } : KvState).put r' } := by
  refine h.moved hkv htree fun q' hq' => ?_
  obtain ⟨q, hq, rfl⟩ := List.mem_map.mp hq'
  split
  · exact ⟨r, hr, hgoes⟩
  · exact ⟨q, hq, h.same hq⟩

theorem SaltInv.output (h : SaltInv total s) (token : Nat) (hstep : s.kv.output rid token = some kv) :
    SaltInv total { s with kv } := by
  have hkv := h.kv.output token hstep
  unfold KvState.output at hstep
  split at hstep
  next => cases hstep
  next r hget =>
    split at hstep
    next => cases hstep
    next =>
      cases hstep
      refine h.put (mem_of_get hget) ?_ hkv h.tree
      exact ⟨rfl, rfl, List.Subset.refl _, h.tail r (mem_of_get hget)⟩

theorem TreeSlots.cacheUnfinishedReq (h : TreeSlots good c) (hinv : RadixInv (r.req.lastNode :: others) c)
    (hr : ReqInv c r) (hrun : r.allocated = true) (hown : ∀ slot ∈ privateSlots r, good r.req.extraKey slot)
    (now later : Int) : TreeSlots good (c.cacheUnfinishedReq now later r.req).2.2 := by
  cases hstyle : r.req.blendStyle with
  | some style =>
    rw [RadixCache.cacheUnfinishedReq, hstyle]
    exact h
  | none =>
    have hinsert : TreeSlots good (unfinishedInsert c now r.req).2 := by
      refine h.insertOwn hinv hr now rfl unfinishedKey_dvd (List.take_prefix_take_left hr.matched_le_computed) ?_ hown
      rw [slots_of_allocated hrun]
      exact (List.take_prefix _ _).trans (List.take_prefix _ _)
    rw [cacheUnfinishedReq_plain now later hstyle]
    exact ((hinsert.matchPrefix (unfinishedInsert_inv hinv now (hr.filled hrun)) later _).decLockRef _).incLockRef _

theorem cacheUnfinishedReq_extraKey (now later : Int) (req : CachedReq) :
    (c.cacheUnfinishedReq now later req).1.extraKey = req.extraKey := by
  cases hstyle : req.blendStyle with
  | some style =>
    rw [RadixCache.cacheUnfinishedReq, hstyle]
    rfl
  | none => rw [cacheUnfinishedReq_plain now later hstyle]

/-- Behind its whole pages the request keeps its slots. -/
theorem Continued.behind_own {c' : RadixCache Nat} {req : CachedReq} (h : Continued c c' r req) (hr : ReqInv c r)
    (hrun : r.allocated = true) : req.prefixIndices.drop req.lastMatchedPrefixLen ⊆ r.req.row.drop (computedPages c r) ∧
      r.req.row.drop (computedPages c r) ⊆ privateSlots r := by
  refine ⟨?_, ?_⟩
  · rw [h.matched, h.behind]
    exact ((List.take_prefix _ _).drop _).subset
  · rw [privateSlots, slots_of_allocated hrun]
    exact List.drop_subset_drop_left _ hr.matched_le_computed

theorem SaltInv.unfinished (h : SaltInv total s) (now later : Int) (hstep : s.kv.unfinished rid now later = some kv) :
    SaltInv total { s with kv } := by
  have hkv := h.kv.unfinished now later hstep
  unfold KvState.unfinished at hstep
  split at hstep
  next => cases hstep
  next r hget =>
    split at hstep
    next => cases hstep
    next hready =>
      have hrun : r.allocated = true := by simpa using fun halloc => hready (.inl halloc)
      have hmem := mem_of_get hget
      have hr := h.kv.each r hmem
      have hradix : RadixInv (r.req.lastNode :: (s.kv.remove rid).reqs.map (·.req.lastNode)) s.kv.cache :=
        (h.kv.focus hget).radix
      have hgoes : GoesOn r { r with req := (s.kv.cache.cacheUnfinishedReq now later r.req).1 } := by
        cases hstyle : r.req.blendStyle with
        | some style =>
          have hsame : (s.kv.cache.cacheUnfinishedReq now later r.req).1 = r.req := by
            rw [RadixCache.cacheUnfinishedReq, hstyle]
            rfl
          rw [hsame]
          exact h.same hmem
        | none =>
          have hcont := cacheUnfinishedReq_continued hradix h.kv.ready h.kv.nodes hr hrun hstyle
            (h.kv.private_nodup hmem) now later
          obtain ⟨htail, hown⟩ := hcont.behind_own hr hrun
          have hprivate : privateSlots { r with req := (s.kv.cache.cacheUnfinishedReq now later r.req).1 } =
              r.req.row.drop (computedPages s.kv.cache r) := by
            rw [privateSlots, InFlight.slots, hrun, hcont.matched]
            exact hcont.rowBehind
          refine ⟨rfl, cacheUnfinishedReq_extraKey now later r.req, ?_, ?_⟩
          · rw [hprivate]
            exact hown
          · rw [hprivate]
            exact htail
      cases hstep
      exact h.put hmem hgoes hkv (h.tree.cacheUnfinishedReq hradix hr hrun (h.own r hmem) now later)

theorem SaltInv.nextChunk (h : SaltInv total s) (extendLen : Nat) (now later : Int)
    (hplain : ∀ r, s.kv.get? rid = some r → r.req.blendStyle = none)
    (hstep : s.kv.nextChunk rid extendLen now later = some kv) : SaltInv total { s with kv } := by
  have hkv := h.kv.nextChunk extendLen now later hplain hstep
  unfold KvState.nextChunk at hstep
  split at hstep
  next => cases hstep
  next r hget =>
    dsimp only at hstep
    split at hstep
    next => cases hstep
    next hready =>
      simp only [not_or, Bool.not_eq_false] at hready
      have hrun := hready.1
      have hmem := mem_of_get hget
      have hr := h.kv.each r hmem
      have hradix : RadixInv (r.req.lastNode :: (s.kv.remove rid).reqs.map (·.req.lastNode)) s.kv.cache :=
        (h.kv.focus hget).radix
      have hcont := cacheUnfinishedReq_continued hradix h.kv.ready h.kv.nodes hr hrun (hplain r hget)
        (h.kv.private_nodup hmem) now later
      obtain ⟨htail, hown⟩ := hcont.behind_own hr hrun
      have hgoes : ∀ fillIds chunked, GoesOn r
          (nextRound r (s.kv.cache.cacheUnfinishedReq now later r.req).1 fillIds chunked) := fun _ _ =>
        ⟨rfl, cacheUnfinishedReq_extraKey now later r.req, List.Subset.trans htail hown, List.Subset.refl _⟩
      cases hstep
      exact h.put hmem (hgoes _ _) hkv (h.tree.cacheUnfinishedReq hradix hr hrun (h.own r hmem) now later)

theorem TreeSlots.cacheFinishedReq (h : TreeSlots good c) (hinv : RadixInv (r.req.lastNode :: others) c)
    (hr : ReqInv c r) (hrun : r.allocated = true) (hown : ∀ slot ∈ privateSlots r, good r.req.extraKey slot)
    (hrow : r.req.row.length = r.req.originInputIds.length + (r.req.outputIds.length - 1)) (now : Int)
    (isInsert : Bool) : TreeSlots good (c.cacheFinishedReq now r.req isInsert).2 := by
  rw [cacheFinishedReq_eq _ _ _ _ hrow]
  split
  · exact h
  · split
    · have hslots := slots_of_allocated hrun
      refine (h.insertOwn hinv hr now rfl ?_ ?_ ?_ hown).decLockRef _
      · rw [finishedKey_len (by rw [List.length_append]; omega)]
        exact pageAligned_dvd _ _
      · exact hr.prefix_finishedKey hrun
      · rw [hslots]
        exact List.take_prefix _ _
    · exact h.decLockRef _

theorem SaltInv.finish (h : SaltInv total s) (now : Int) (isInsert : Bool)
    (hstep : s.kv.finish rid now isInsert = some kv) : SaltInv total { s with kv } := by
  have hkv := h.kv.finish now isInsert hstep
  unfold KvState.finish at hstep
  split at hstep
  next => cases hstep
  next r hget =>
    split at hstep
    next => cases hstep
    next hready =>
      simp only [not_or, Bool.not_eq_false, Bool.not_eq_true, not_not] at hready
      obtain ⟨hrun, -, hrow⟩ := hready
      have hmem := mem_of_get hget
      have hradix : RadixInv (r.req.lastNode :: (s.kv.remove rid).reqs.map (·.req.lastNode)) s.kv.cache :=
        (h.kv.focus hget).radix
      have heq := Option.some.inj hstep
      subst heq
      refine h.moved hkv (h.tree.cacheFinishedReq hradix (h.kv.each r hmem) hrun (h.own r hmem) hrow now isInsert)
        fun q hq => ?_
      have hold := (List.mem_filter.mp hq).1
      exact ⟨q, hold, h.same hold⟩

end Steps

/-! ## Runs -/

section Runs

variable {total : Nat} {s s' : SaltedState}

theorem SaltInv.arrive (h : SaltInv total s) {call : GenerateReqInput} {registry : LoraRegistry} {i rid : Nat}
    {originInputIds outputIds : List Nat} {blendStyle : Option BlendStyle} {maxPrefixLen extendLen : Nat} {now : Int}
    (hguard : SaltsAgree s (.arrive call registry i rid originInputIds outputIds blendStyle maxPrefixLen extendLen now))
    (hstep : s.arrive call registry i rid originInputIds outputIds blendStyle maxPrefixLen extendLen now = some s') :
    SaltInv total s' := by
  unfold SaltedState.arrive at hstep
  obtain ⟨⟨prompt, key⟩, harriving, hstep⟩ := Option.bind_eq_some_iff.mp hstep
  obtain ⟨kv, hadmit, hstep⟩ := Option.bind_eq_some_iff.mp hstep
  obtain ⟨hagree, hblend⟩ := hguard (prompt, key) harriving
  cases hstep
  rw [radixKey_of_arriving harriving] at hadmit
  have hkv := h.kv.admitReq hblend hadmit
  unfold KvState.admitReq at hadmit
  dsimp only at hadmit
  split at hadmit
  next => cases hadmit
  next hready =>
    have hfresh : ∀ r ∈ s.kv.reqs, r.rid ≠ rid := by
      intro r hr hrid
      refine hready (.inl ?_)
      exact List.find?_isSome.mpr ⟨r, hr, decide_eq_true hrid⟩
    cases hadmit
    refine ⟨hkv, (h.tree.matchPrefix h.kv.radix now _).incLockRef _, fun r hr => ?_, fun r hr => ?_, fun r hr => ?_,
      fun slot other hcomputed => List.mem_cons_of_mem _ (h.sent slot other hcomputed), ?_⟩
    · rcases List.mem_cons.mp hr with rfl | hold
      · intro slot hslot
        simp [privateSlots, InFlight.slots] at hslot
      · exact h.own r hold
    · rcases List.mem_cons.mp hr with rfl | hold
      · simp
      · exact h.tail r hold
    · rcases List.mem_cons.mp hr with rfl | hold
      · exact ⟨key, List.mem_cons_self, if_pos rfl, rfl⟩
      · obtain ⟨other, hother, howner, hradix⟩ := h.owner r hold
        exact ⟨other, List.mem_cons_of_mem _ hother, (if_neg (hfresh r hold)).trans howner, hradix⟩
    · have hsame : ∀ other ∈ s.sent, other.radixKey = key.radixKey → other = key := by
        intro other hother hradix
        rw [radixKey_eq, radixKey_eq] at hradix
        have hextra := hagree other hother hradix
        cases other
        cases key
        cases hextra
        cases hradix
        rfl
      intro a ha b hb hradix
      rcases List.mem_cons.mp ha with hnew | hold
      · rcases List.mem_cons.mp hb with hnew' | hold'
        · rw [hnew, hnew']
        · rw [hnew, hsame b hold' (hnew ▸ hradix.symm)]
      · rcases List.mem_cons.mp hb with hnew' | hold'
        · rw [hnew', hsame a hold (hnew' ▸ hradix)]
        · exact h.apart a hold b hold' hradix

theorem SaltInv.step (h : SaltInv total s) {op : SaltedOp} (hguard : SaltsAgree s op)
    (hstep : saltedMachine.step op s = some s') : SaltInv total s' := by
  cases op with
  | arrive => exact h.arrive hguard hstep
  | cache op =>
    cases op with
    | admitReq => cases hstep
    | allocForExtend mem =>
      obtain ⟨kv, hkv, rfl⟩ := Option.map_eq_some_iff.mp hstep
      exact h.allocForExtend mem hkv
    | allocForDecode mem rids =>
      obtain ⟨kv, hkv, rfl⟩ := Option.map_eq_some_iff.mp hstep
      exact h.allocForDecode mem rids hkv
    | output rid token =>
      obtain ⟨kv, hkv, rfl⟩ := Option.map_eq_some_iff.mp hstep
      exact h.output token hkv
    | unfinished rid now later =>
      obtain ⟨kv, hkv, rfl⟩ := Option.map_eq_some_iff.mp hstep
      exact h.unfinished now later hkv
    | nextChunk rid extendLen now later =>
      obtain ⟨kv, hkv, rfl⟩ := Option.map_eq_some_iff.mp hstep
      exact h.nextChunk extendLen now later hguard hkv
    | finish rid now isInsert =>
      obtain ⟨kv, hkv, rfl⟩ := Option.map_eq_some_iff.mp hstep
      exact h.finish now isInsert hkv
    | evict numTokens =>
      cases hstep
      exact h.moved (h.kv.evict numTokens) (h.tree.evict h.kv.radix numTokens) fun r hr => ⟨r, hr, h.same hr⟩
    | matchPrefix now key =>
      cases hstep
      exact h.moved (h.kv.matchPrefix now key) (h.tree.matchPrefix h.kv.radix now key) fun r hr => ⟨r, hr, h.same hr⟩

theorem saltInv_start (size pageSize : Nat) (h : 0 < pageSize) (needSort : Bool) (policy : EvictionPolicy) (now : Int) :
    SaltInv (size / pageSize) (.start (KvState.start size pageSize h needSort policy now)) where
  kv := kvInv_start size pageSize h needSort policy now
  tree _ _ _ hstored := hstored.elim
  own _ hr := by cases hr
  tail _ hr := by cases hr
  owner _ hr := by cases hr
  sent _ _ hcomputed := by cases hcomputed
  apart _ hkey := by cases hkey

/-- As long as the clients of an adapter give the same extra key, every prefix was computed for the
key of the request, and different keys have different namespaces. -/
theorem salts_isolated {size pageSize : Nat} {hpage : 0 < pageSize} {needSort : Bool} {policy : EvictionPolicy}
    {now : Int} (h : saltedMachine.Reach SaltsAgree
      (· = SaltedState.start (KvState.start size pageSize hpage needSort policy now)) s) : SaltsIsolated s := by
  refine (Machine.Reach.invariant (fun s hs => ?_) (fun _ _ _ hinv hguard hstep => hinv.step hguard hstep) h
    : SaltInv (size / pageSize) s).isolated
  rw [hs]
  exact saltInv_start size pageSize hpage needSort policy now

/-- A call for one prompt, and one for two prompts whose second finds the prompt of the first call. -/
def saltedOps (salt : String) : List SaltedOp :=
  [.arrive ⟨true, 1, 1, none, none, some (.one "a")⟩ ⟨.empty, .empty⟩ 0 1 [5, 6] [] none 9 2 0,
    .cache (.allocForExtend zeroMemory), .cache (.finish 1 10 true),
    .arrive ⟨false, 2, 1, none, none, some (.each ["a", salt])⟩ ⟨.empty, .empty⟩ 1 2 [5, 6, 7] [] none 9 1 20]

theorem salts_isolated_one : ∃ s, SaltsIsolated s ∧ s.kv.reqs.map (·.req.prefixIndices) = [[1, 2]] := by
  have hview : (saltedMachine.guardedRun SaltsAgree (saltedOps "a") (.start (KvState.start 8 1 (by decide) false .lru 0))).map
      (fun s => s.kv.reqs.map (·.req.prefixIndices)) = some [[1, 2]] := by
    decide +kernel
  obtain ⟨s, hrun, hs⟩ := Option.map_eq_some_iff.mp hview
  have hreach : saltedMachine.Reach SaltsAgree
      (· = SaltedState.start (KvState.start 8 1 (by decide) false .lru 0)) s := .of_guardedRun (.start rfl) hrun
  exact ⟨s, salts_isolated hreach, hs⟩

/-- A prompt with the salt "b" gets the slots of a request with the salt "a". -/
theorem salts_not_isolated : ∃ s, saltedMachine.Reach (fun _ _ => True)
    (· = SaltedState.start (KvState.start 8 1 (by decide) false .lru 0)) s ∧ ¬SaltsIsolated s := by
  have hview : (saltedMachine.run (saltedOps "b") (.start (KvState.start 8 1 (by decide) false .lru 0))).map
      (fun s => s.kv.reqs.map fun r => (s.owner r.rid, r.req.prefixIndices.map s.computedFor)) =
        some [(some ⟨some "b", none⟩, [some ⟨some "a", none⟩, some ⟨some "a", none⟩])] := by
    decide +kernel
  obtain ⟨s, hrun, hs⟩ := Option.map_eq_some_iff.mp hview
  refine ⟨s, .of_run (fun _ _ _ => trivial) (.start rfl) hrun, fun hisolated => ?_⟩
  obtain ⟨r, hr, hentry⟩ := List.mem_map.mp (hs ▸ List.mem_singleton_self (some (⟨some "b", none⟩ : ClientKey),
    [some (⟨some "a", none⟩ : ClientKey), some ⟨some "a", none⟩]))
  obtain ⟨howner, hslots⟩ := Prod.mk.injEq _ _ _ _ ▸ hentry
  obtain ⟨key, hkey, hshared⟩ := hisolated.prefixes r hr
  rw [howner] at hkey
  cases hkey
  obtain ⟨slot, hslot, hcomputed⟩ := List.mem_map.mp (hslots ▸ List.mem_cons_self : some (⟨some "a", none⟩ : ClientKey) ∈
    r.req.prefixIndices.map s.computedFor)
  rw [hshared slot hslot] at hcomputed
  exact absurd hcomputed (by decide)

end Runs

end QCFuse.Guarantees
