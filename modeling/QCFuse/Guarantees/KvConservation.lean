import QCFuse.Guarantees.KvPages

/-!
# Every page has one owner

A page of the pool is free, in the tree, or behind what the tree holds of one request. What each
operation of the cache does to the paths of the requests and to the pages gives that no step loses
a page or frees one twice, as long as requests with a blend style own all their pages.
-/

set_option autoImplicit false

namespace QCFuse.Guarantees

open QCFuse.Library QCFuse.Source

/-- The slots of a request behind what the tree holds of it. -/
def privateSlots (r : InFlight) : List Int := r.slots.drop r.req.lastMatchedPrefixLen

def privatePages (P : Nat) (r : InFlight) : List Int := pagesIn P (privateSlots r)

/-- The pages of the pool; page 0 is for padded tokens. -/
def poolPages (total : Nat) : List Int := (List.range total).map fun i : Nat => (i : Int) + 1

/-- The pages by owner: free, in the tree, of a request. -/
def ownedPages (s : KvState) : List Int :=
  s.pool.freeSet ++ (treePages s.cache.pageSize s.cache.children ++
    s.reqs.flatMap (privatePages s.cache.pageSize))

/-- A request holds the root and has nothing matched, or the node its matched tokens lead to. -/
def HoldsPath (c : RadixCache Nat) (req : CachedReq) : Prop :=
  (req.lastMatchedPrefixLen = 0 ∧ req.lastNode = c.rootNode.id) ∨
  PathTo c.children req.lastNode req.extraKey (req.fillIds.take req.lastMatchedPrefixLen)
    (req.prefixIndices.take req.lastMatchedPrefixLen)

structure ReqInv (c : RadixCache Nat) (r : InFlight) : Prop where
  aligned : r.req.lastMatchedPrefixLen = pageAligned c.pageSize r.req.prefixIndices.length
  path : HoldsPath c r.req
  within : r.req.prefixIndices.length ≤ r.slots.length
  known : r.req.prefixIndices.length ≤ r.req.fillIds.length
  filled : r.allocated = true → r.req.fillIds.length ≤ r.req.row.length
  chunk : r.allocated = true → r.chunked = true → r.req.row.length = r.req.fillIds.length
  waiting : r.allocated = false → r.req.prefixIndices.length < r.req.fillIds.length
  pages : InPages c.pageSize (privateSlots r)
  offsets : OnOffsets c.pageSize r.slots
  tokens : r.req.fillIds <+: r.req.originInputIds ++ r.req.outputIds
  blend : r.req.blendStyle.isSome = true → r.req.prefixIndices = [] ∧ r.req.lastNode = c.rootNode.id

structure KvInv (total : Nat) (s : KvState) : Prop where
  radix : RadixInv (s.reqs.map (·.req.lastNode)) s.cache
  ready : PoolReady s.cache.pageSize s.pool
  nodes : NodesInPages s.cache.pageSize s.cache.children
  rids : (s.reqs.map (·.rid)).Nodup
  each : ∀ r ∈ s.reqs, ReqInv s.cache r
  pages : (ownedPages s).Perm (poolPages total)

/-! ## What the cache does to paths and pages -/

/-- The cache after an operation that leaves the paths to the nodes of `held` as they are. -/
structure KeepsPaths (held : List Nat) (c c' : RadixCache Nat) : Prop where
  pageSize : c'.pageSize = c.pageSize
  rootNode : c'.rootNode.id = c.rootNode.id
  paths : ∀ id ∈ held, ∀ extraKey t v, PathTo c.children id extraKey t v →
    PathTo c'.children id extraKey t v

section Cache

variable {c c' c'' : RadixCache Nat} {held : List Nat}

theorem KeepsPaths.refl (held : List Nat) (c : RadixCache Nat) : KeepsPaths held c c :=
  ⟨rfl, rfl, fun _ _ _ _ _ h => h⟩

theorem KeepsPaths.trans (h : KeepsPaths held c c') (h' : KeepsPaths held c' c'') :
    KeepsPaths held c c'' :=
  ⟨h'.pageSize.trans h.pageSize, h'.rootNode.trans h.rootNode,
    fun id hid extraKey t v hpath => h'.paths id hid extraKey t v (h.paths id hid extraKey t v hpath)⟩

theorem KeepsPaths.reqInv {r : InFlight} (h : KeepsPaths held c c') (hheld : r.req.lastNode ∈ held)
    (hr : ReqInv c r) : ReqInv c' r where
  aligned := h.pageSize.symm ▸ hr.aligned
  path := hr.path.imp (fun hroot => ⟨hroot.1, hroot.2.trans h.rootNode.symm⟩)
    (h.paths _ hheld _ _ _)
  within := hr.within
  known := hr.known
  filled := hr.filled
  chunk := hr.chunk
  waiting := hr.waiting
  pages := h.pageSize.symm ▸ hr.pages
  offsets := h.pageSize.symm ▸ hr.offsets
  tokens := hr.tokens
  blend hstyle := ⟨(hr.blend hstyle).1, (hr.blend hstyle).2.trans h.rootNode.symm⟩

/-- The tree after an operation that adds the pages `added`. -/
structure AddsPages (added : List Int) (c c' : RadixCache Nat) : Prop where
  nodes : NodesInPages c'.pageSize c'.children
  pages : (treePages c'.pageSize c'.children).Perm (treePages c.pageSize c.children ++ added)

theorem matchPrefix_keeps {holds : List Nat} (h : RadixInv holds c) (now : Int) (key : RadixKey Nat) :
    KeepsPaths held c (c.matchPrefix now key).2 := by
  refine ⟨matchPrefix_pageSize c now key, matchPrefix_rootNode c now key, fun id _ extraKey t v hpath => ?_⟩
  rcases matchPrefix_cases c h.shaped now key with ⟨_, heq⟩ | ⟨hne, n, children, hwalk, heq⟩
  · rw [heq]
    exact hpath
  · rw [heq]
    exact hwalk.path hpath

theorem matchPrefix_pages {holds : List Nat} (h : RadixInv holds c) (hnodes : NodesInPages c.pageSize c.children)
    (now : Int) (key : RadixKey Nat) : AddsPages [] c (c.matchPrefix now key).2 := by
  have hsize := matchPrefix_pageSize c now key
  rcases matchPrefix_cases c h.shaped now key with ⟨_, heq⟩ | ⟨hne, n, children, hwalk, heq⟩
  · rw [heq]
    exact ⟨hnodes, by rw [List.append_nil]⟩
  · obtain ⟨hkept, hperm⟩ := hwalk.pages c.pageSize_pos h.shaped (fun value hval => by cases hval)
      (by simpa using inPages_nil _) hnodes
    rw [heq]
    refine ⟨hkept, hperm.trans ?_⟩
    rw [Option.getD_none, List.drop_nil, pagesIn_nil c.pageSize_pos]

theorem insert_keeps {holds : List Nat} (h : RadixInv holds c) (now : Int) {key : RadixKey Nat}
    {value : List Int} (halign : c.pageSize ∣ key.len) : KeepsPaths held c (c.insert now key value).2 := by
  refine ⟨insert_pageSize c now key value, insert_rootNode c now key value,
    fun id _ extraKey t v hpath => ?_⟩
  rcases insert_cases c h.shaped now key value halign with ⟨_, heq⟩ | ⟨hne, s, children, hwalk, heq⟩
  · rw [heq]
    exact hpath
  · rw [heq]
    exact hwalk.path hpath

theorem insert_pages {holds : List Nat} (h : RadixInv holds c) (hnodes : NodesInPages c.pageSize c.children)
    (now : Int) {key : RadixKey Nat} {value : List Int} (halign : c.pageSize ∣ key.len)
    (hlen : value.length = key.len) (hleaf : InPages c.pageSize (value.drop (c.insert now key value).1)) :
    AddsPages (pagesIn c.pageSize (value.drop (c.insert now key value).1)) c (c.insert now key value).2 := by
  rcases insert_cases c h.shaped now key value halign with ⟨hempty, heq⟩ | ⟨hne, s, children, hwalk, heq⟩
  · rw [heq]
    refine ⟨hnodes, ?_⟩
    rw [List.eq_nil_of_length_eq_zero (hlen.trans hempty), List.drop_nil, pagesIn_nil c.pageSize_pos,
      List.append_nil]
  · obtain ⟨hkept, hperm⟩ := hwalk.pages c.pageSize_pos h.shaped (fun v hval => by cases hval; exact hlen)
      hleaf hnodes
    rw [heq]
    exact ⟨hkept, hperm⟩

theorem incLockRef_keeps (c : RadixCache Nat) (node : Nat) : KeepsPaths held c (c.incLockRef node) :=
  ⟨rfl, rfl, fun _ _ _ _ _ hpath => (pathTo_mapPath _ 1).mpr hpath⟩

theorem decLockRef_keeps (c : RadixCache Nat) (node : Nat) : KeepsPaths held c (c.decLockRef node) :=
  ⟨rfl, rfl, fun _ _ _ _ _ hpath => (pathTo_mapPath _ (-1)).mpr hpath⟩

theorem incLockRef_pages (hnodes : NodesInPages c.pageSize c.children) (node : Nat) :
    AddsPages [] c (c.incLockRef node) :=
  ⟨(nodesInPages_mapPath _ 1).mpr hnodes, by
    rw [List.append_nil]
    exact List.Perm.of_eq (treePages_mapPath _ 1)⟩

theorem decLockRef_pages (hnodes : NodesInPages c.pageSize c.children) (node : Nat) :
    AddsPages [] c (c.decLockRef node) :=
  ⟨(nodesInPages_mapPath _ (-1)).mpr hnodes, by
    rw [List.append_nil]
    exact List.Perm.of_eq (treePages_mapPath _ (-1))⟩

theorem AddsPages.trans {added added' : List Int} (h : AddsPages added c c') (h' : AddsPages added' c' c'') :
    AddsPages (added ++ added') c c'' :=
  ⟨h'.nodes, by
    rw [← List.append_assoc]
    exact h'.pages.trans (h.pages.append_right _)⟩

theorem evict_keeps (h : RadixInv held c) (numTokens : Int) : KeepsPaths held c (c.evict numTokens).2 :=
  ⟨rfl, rfl, fun _ hid _ _ _ hpath =>
    (evict_enough h numTokens).chain.path h.idsNodup h.locks hid hpath⟩

/-- The pages of the evicted values leave the tree. -/
theorem evict_pages (h : RadixInv held c) (hnodes : NodesInPages c.pageSize c.children) (numTokens : Int) :
    (∀ v ∈ (c.evict numTokens).1.map (·.value), InPages c.pageSize v) ∧
    NodesInPages c.pageSize (c.evict numTokens).2.children ∧
    (treePages c.pageSize c.children).Perm
      (((c.evict numTokens).1.map (·.value)).flatMap (pagesIn c.pageSize) ++
        treePages c.pageSize (c.evict numTokens).2.children) := by
  have hperm := (evict_enough h numTokens).chain.perm h.idsNodup
  refine ⟨fun v hv => ?_, fun node hnode => hnodes node (hperm.mem_iff.mpr (List.mem_append_right _ hnode)), ?_⟩
  · obtain ⟨node, hnode, rfl⟩ := List.mem_map.mp hv
    exact hnodes node (hperm.mem_iff.mpr (List.mem_append_left _ hnode))
  · rw [treePages, treePages, ← List.flatMap_append, ← List.map_append]
    exact (hperm.map _).flatMap_right _

end Cache

/-! ## Requests exchanged for others -/

section Exchange

variable {total : Nat} {s : KvState} {c c' : RadixCache Nat} {a a' : PagedAllocator}
  {others : List InFlight}

theorem KvInv.nodup (h : KvInv total s) : (ownedPages s).Nodup := by
  refine h.pages.nodup_iff.mpr ((List.nodup_range).map fun i j hij => ?_)
  simpa using hij

/-- The order of the requests does not matter. -/
theorem KvInv.perm {reqs : List InFlight} (h : KvInv total s) (hperm : s.reqs.Perm reqs) :
    KvInv total { s with reqs } where
  radix := h.radix.perm (hperm.map _)
  ready := h.ready
  nodes := h.nodes
  rids := (hperm.map _).nodup_iff.mp h.rids
  each r hr := h.each r (hperm.mem_iff.mpr hr)
  pages := (((hperm.flatMap_right _).append_left _).append_left _).symm.trans h.pages

/-- A step that is about some of the requests: `rs'` come in the place of `rs`. -/
theorem KvInv.exchange (rs rs' : List InFlight) (h : KvInv total ⟨c, a, rs ++ others⟩)
    (hrids : ((rs' ++ others).map (·.rid)).Nodup)
    (hkeeps : KeepsPaths (others.map (·.req.lastNode)) c c')
    (hradix : RadixInv ((rs' ++ others).map (·.req.lastNode)) c')
    (hready : PoolReady c'.pageSize a') (hnodes : NodesInPages c'.pageSize c'.children)
    (heach : ∀ r ∈ rs', ReqInv c' r)
    (hpages : (a'.freeSet ++ (treePages c'.pageSize c'.children ++ rs'.flatMap (privatePages c'.pageSize))).Perm
      (a.freeSet ++ (treePages c.pageSize c.children ++ rs.flatMap (privatePages c.pageSize)))) :
    KvInv total ⟨c', a', rs' ++ others⟩ where
  radix := hradix
  ready := hready
  nodes := hnodes
  rids := hrids
  each r hr := by
    rcases List.mem_append.mp hr with hr | hr
    · exact heach r hr
    · exact hkeeps.reqInv (List.mem_map_of_mem hr) (h.each r (List.mem_append_right _ hr))
  pages := by
    refine List.Perm.trans ?_ h.pages
    have hothers : others.flatMap (privatePages c'.pageSize) = others.flatMap (privatePages c.pageSize) := by
      rw [hkeeps.pageSize]
    simp only [ownedPages, List.flatMap_append, hothers]
    rw [← List.append_assoc, ← List.append_assoc, ← List.append_assoc, ← List.append_assoc]
    rw [← List.append_assoc, ← List.append_assoc] at hpages
    exact hpages.append_right _

/-- The request looked up, before the others. -/
theorem find_split {reqs : List InFlight} {rid : Nat} {r : InFlight} (hrids : (reqs.map (·.rid)).Nodup)
    (h : (reqs.find? fun r => r.rid = rid) = some r) :
    r.rid = rid ∧ reqs.Perm (r :: reqs.filter fun r => r.rid ≠ rid) ∧ ∀ r' : InFlight, r'.rid = rid →
      (reqs.map fun q => if q.rid = r'.rid then r' else q).Perm (r' :: reqs.filter fun r => r.rid ≠ rid) := by
  induction reqs with
  | nil => cases h
  | cons q reqs ih =>
    rw [List.map_cons, List.nodup_cons] at hrids
    by_cases hq : q.rid = rid
    · rw [List.find?_cons_of_pos (by simpa using hq)] at h
      cases h
      have hothers : ∀ q' ∈ reqs, q'.rid ≠ rid := fun q' hq' heq =>
        hrids.1 (List.mem_map.mpr ⟨q', hq', heq.trans hq.symm⟩)
      have hfilter : ((r :: reqs).filter fun r => r.rid ≠ rid) = reqs := by
        rw [List.filter_cons_of_neg (by simpa using hq)]
        exact List.filter_eq_self.mpr fun q' hq' => decide_eq_true (hothers q' hq')
      refine ⟨hq, by rw [hfilter], fun r' hr' => ?_⟩
      have hkeep : (reqs.map fun q => if q.rid = r'.rid then r' else q) = reqs := by
        conv_rhs => rw [← List.map_id reqs]
        exact List.map_congr_left fun q' hq' => if_neg fun heq => hothers q' hq' (heq.trans hr')
      rw [hfilter, List.map_cons, if_pos (hq.trans hr'.symm), hkeep]
    · rw [List.find?_cons_of_neg (by simpa using hq)] at h
      obtain ⟨hr, hperm, hput⟩ := ih hrids.2 h
      rw [List.filter_cons_of_pos (by simpa using hq)]
      refine ⟨hr, (hperm.cons q).trans (List.Perm.swap _ _ _), fun r' hr' => ?_⟩
      rw [List.map_cons, if_neg fun heq => hq (heq.trans hr')]
      exact ((hput r' hr').cons q).trans (List.Perm.swap _ _ _)

end Exchange

/-! ## Evictions and matches -/

section Steps

variable {total : Nat} {s : KvState}

theorem KvInv.evict (h : KvInv total s) (numTokens : Int) : KvInv total (s.evict numTokens) := by
  have hpos := s.cache.pageSize_pos
  obtain ⟨hvalues, hnodes, htree⟩ := evict_pages h.radix h.nodes numTokens
  have hnodup := h.nodup
  rw [ownedPages, ← List.append_assoc] at hnodup
  have hfreed : (((s.cache.evict numTokens).1.map (·.value)).flatMap (pagesIn s.cache.pageSize)).Nodup :=
    (List.nodup_append'.mp (htree.nodup_iff.mp
      (List.nodup_append'.mp (List.nodup_append'.mp hnodup).1).2.1)).1
  refine KvInv.exchange [] [] h h.rids (evict_keeps h.radix numTokens)
    (h.radix.evict numTokens) (h.ready.releaseAll _) hnodes (fun r hr => by cases hr) ?_
  simp only [List.flatMap_nil, List.append_nil]
  refine ((releaseAll_values h.ready hpos hvalues hfreed).append_right _).trans ?_
  refine List.Perm.trans ?_ (htree.symm.append_left _)
  rw [← List.append_assoc]
  exact List.perm_append_comm.append_right _

theorem KvInv.evictFromTreeCache (h : KvInv total s) (numTokens : Nat) :
    KvInv total (s.evictFromTreeCache numTokens) := by
  unfold KvState.evictFromTreeCache
  split
  · exact h.evict numTokens
  · exact h

theorem KvInv.matchPrefix (h : KvInv total s) (now : Int) (key : RadixKey Nat) :
    KvInv total { s with cache := (s.cache.matchPrefix now key).2 } := by
  have hadds := matchPrefix_pages h.radix h.nodes now key
  refine KvInv.exchange [] [] h h.rids (matchPrefix_keeps h.radix now key)
    (h.radix.matchPrefix now key) (by simpa using h.ready) hadds.nodes (fun r hr => by cases hr) ?_
  have hpages := hadds.pages
  rw [List.append_nil] at hpages
  simp only [List.flatMap_nil, List.append_nil]
  exact hpages.append_left _

end Steps

/-! ## Admission -/

section Admission

variable {total : Nat} {s : KvState}

/-- A request as its admission leaves it. -/
structure JustAdmitted (s : KvState) (now : Int) (key : RadixKey Nat) (input : List Nat) (r : InFlight) : Prop where
  extraKey : r.req.extraKey = key.extraKey
  waits : r.allocated = false
  prefixIndices : r.req.prefixIndices = (s.cache.matchPrefix now key).1.deviceIndices
  lastNode : r.req.lastNode = (s.cache.matchPrefix now key).1.lastDeviceNode
  matched : r.req.lastMatchedPrefixLen = r.req.prefixIndices.length
  tokens : r.req.originInputIds ++ r.req.outputIds = input
  fillIds : r.req.fillIds <+: input
  more : r.req.prefixIndices.length < r.req.fillIds.length
  blend : r.req.blendStyle.isSome = true → r.req.prefixIndices = []

theorem JustAdmitted.reqInv {now : Int} {key : RadixKey Nat} {input : List Nat} {r : InFlight}
    (hadmitted : JustAdmitted s now key input r) (h : KvInv total s) (hkey : key.tokenIds <+: input) :
    ReqInv ((s.cache.matchPrefix now key).2.incLockRef r.req.lastNode) r := by
  have hexact := matchPrefix_exact h.radix now key
  have hpath := matchPrefix_path h.radix now key
  have hadds := matchPrefix_pages h.radix h.nodes now key
  have hsize := matchPrefix_pageSize s.cache now key
  have hslots : r.slots = r.req.prefixIndices := by
    rw [InFlight.slots, hadmitted.waits]
    rfl
  have halign : s.cache.pageSize ∣ r.req.prefixIndices.length := hadmitted.prefixIndices ▸ hexact.aligned
  have hwithin : r.req.prefixIndices.length ≤ key.len := hadmitted.prefixIndices ▸ hexact.within
  have hsame : key.tokenIds.take r.req.prefixIndices.length = r.req.fillIds.take r.req.prefixIndices.length := by
    rw [← take_of_isPrefix hkey hwithin, take_of_isPrefix hadmitted.fillIds hadmitted.more.le]
  rw [← hadmitted.prefixIndices, ← hadmitted.lastNode, hsame, ← hadmitted.extraKey] at hpath
  have hshape := (h.radix.matchPrefix now key).shaped
  exact {
    aligned := by
      show _ = pageAligned (s.cache.matchPrefix now key).2.pageSize _
      rw [hadmitted.matched, hsize, pageAligned, Nat.div_mul_cancel halign]
    path := by
      rw [HoldsPath, hadmitted.matched, List.take_length]
      refine hpath.imp (fun hroot => ⟨List.length_eq_zero_iff.mpr hroot.1, ?_⟩) fun hnode => ?_
      · exact hroot.2.trans (matchPrefix_rootNode s.cache now key).symm
      · exact (pathTo_mapPath _ 1).mpr hnode
    within := by rw [hslots]
    known := hadmitted.more.le
    filled := fun halloc => absurd halloc (by rw [hadmitted.waits]; decide)
    chunk := fun halloc => absurd halloc (by rw [hadmitted.waits]; decide)
    waiting := fun _ => hadmitted.more
    pages := by
      rw [privateSlots, hslots, hadmitted.matched, List.drop_length]
      exact inPages_nil _
    offsets := by
      rw [hslots]
      rcases hpath with ⟨hnil, _⟩ | hnode
      · rw [hnil]
        exact (inPages_nil _).onOffsets
      · exact (hnode.inPages (s.cache.matchPrefix now key).2.pageSize_pos hshape hadds.nodes).onOffsets
    tokens := hadmitted.tokens ▸ hadmitted.fillIds
    blend := fun hstyle => by
      have hnil := hadmitted.blend hstyle
      refine ⟨hnil, ?_⟩
      rcases hpath with ⟨_, hroot⟩ | hnode
      · exact hroot.trans (matchPrefix_rootNode s.cache now key).symm
      · have hne := (hnode.ne_nil_length hshape).1
        rw [hnil] at hne
        exact absurd List.take_zero hne }

theorem KvInv.admitted {now : Int} {key : RadixKey Nat} {input : List Nat} {r : InFlight} (h : KvInv total s)
    (hadmitted : JustAdmitted s now key input r) (hkey : key.tokenIds <+: input) (hnew : s.get? r.rid = none) :
    KvInv total { s with
      cache := (s.cache.matchPrefix now key).2.incLockRef (s.cache.matchPrefix now key).1.lastDeviceNode
      reqs := r :: s.reqs } := by
  have hreq := hadmitted.reqInv h hkey
  have hadds := (matchPrefix_pages h.radix h.nodes now key).trans
    (incLockRef_pages (matchPrefix_pages h.radix h.nodes now key).nodes r.req.lastNode)
  have hlast := matchPrefix_lastNode h.radix now key
  rw [← hadmitted.lastNode] at hlast ⊢
  refine KvInv.exchange [] [r] h ?_
    ((matchPrefix_keeps h.radix now key).trans (incLockRef_keeps _ _))
    ((h.radix.matchPrefix now key).incLockRef hlast) ?_ hadds.nodes (fun r' hr' => ?_) ?_
  · refine List.nodup_cons.mpr ⟨fun hmem => ?_, h.rids⟩
    obtain ⟨q, hq, heq⟩ := List.mem_map.mp hmem
    exact List.find?_eq_none.mp hnew q hq (by simpa using heq)
  · show PoolReady (s.cache.matchPrefix now key).2.pageSize s.pool
    rw [matchPrefix_pageSize]
    exact h.ready
  · rw [List.mem_singleton.mp hr']
    exact hreq
  · have hprivate : privatePages ((s.cache.matchPrefix now key).2.incLockRef r.req.lastNode).pageSize r = [] := by
      rw [privatePages, privateSlots, InFlight.slots, hadmitted.waits, hadmitted.matched]
      simp only [Bool.false_eq_true, if_false, List.drop_length]
      exact pagesIn_nil ((s.cache.matchPrefix now key).2.incLockRef r.req.lastNode).pageSize_pos
    have hpages := hadds.pages
    rw [List.append_nil] at hpages
    simp only [List.flatMap_cons, hprivate, List.flatMap_nil, List.append_nil]
    exact (hpages.trans (List.Perm.of_eq (List.append_nil _))).append_left _

end Admission

/-! ## Allocations -/

section Allocation

variable {total : Nat} {s : KvState} {c : RadixCache Nat} {r : InFlight}
  {want seqLen : InFlight → Nat} {write : InFlight → List Int → InFlight}

theorem ReqInv.matched_dvd (h : ReqInv c r) : c.pageSize ∣ r.req.lastMatchedPrefixLen :=
  h.aligned ▸ pageAligned_dvd _ _

theorem ReqInv.matched_le (h : ReqInv c r) : r.req.lastMatchedPrefixLen ≤ r.req.prefixIndices.length :=
  h.aligned ▸ pageAligned_le _ _

/-- A request with slots behind those it has. -/
def extended (r : InFlight) (slots : List Int) : InFlight :=
  { r with allocated := true, req := { r.req with row := r.slots ++ slots } }

/-- The request is to have slots up to `seqLen`, which reaches `fill_ids`. -/
structure Asks (want seqLen : InFlight → Nat) (write : InFlight → List Int → InFlight) (r : InFlight) :
    Prop where
  reaches : r.slots.length + want r = seqLen r
  filled : r.req.fillIds.length ≤ seqLen r
  chunk : r.chunked = true → seqLen r = r.req.fillIds.length
  write : ∀ slots, write r slots = extended r slots

theorem Asks.extendLen (h : Asks want seqLen write r) : (growReq r (seqLen r)).extendLen = want r := by
  show seqLen r - r.slots.length = want r
  rw [← h.reaches, Nat.add_sub_cancel_left]

theorem Asks.lt (h : Asks want seqLen write r) (hwant : want r ≠ 0) : r.slots.length < seqLen r := by
  have := h.reaches
  omega

/-- The request goes on filling its pages. -/
theorem ReqInv.grow (hr : ReqInv c r) (hasks : Asks want seqLen write r) (hwant : want r ≠ 0)
    {pages : List Int} (hpages : pages.length = (growReq r (seqLen r)).newPages c.pageSize) :
    ReqInv c (extended r ((growReq r (seqLen r)).slots c.pageSize pages)) ∧
      privatePages c.pageSize (extended r ((growReq r (seqLen r)).slots c.pageSize pages)) =
        privatePages c.pageSize r ++ pages := by
  have hwithin : r.req.lastMatchedPrefixLen ≤ r.slots.length := hr.matched_le.trans hr.within
  obtain ⟨hin, heq⟩ := grow_inPages c.pageSize_pos hr.matched_dvd hwithin (hasks.lt hwant) hr.pages hpages
  have hrow : (r.slots ++ (growReq r (seqLen r)).slots c.pageSize pages).length = seqLen r := by
    rw [List.length_append, ExtendReq.length_slots, hasks.extendLen, hasks.reaches]
  refine ⟨?_, heq⟩
  exact {
    aligned := hr.aligned
    path := hr.path
    within := by
      show _ ≤ (r.slots ++ _).length
      rw [List.length_append]
      exact hr.within.trans (Nat.le_add_right _ _)
    known := hr.known
    filled := fun _ => hasks.filled.trans hrow.ge
    chunk := fun _ hchunk => hrow.trans (hasks.chunk hchunk)
    waiting := fun hwait => by cases hwait
    pages := hin
    offsets := by
      have hdvd : c.pageSize ∣ (r.slots.take r.req.lastMatchedPrefixLen).length := by
        rw [List.length_take_of_le hwithin]
        exact hr.matched_dvd
      have hjoin := (hr.offsets.take r.req.lastMatchedPrefixLen).append hdvd hin.onOffsets
      rwa [← take_of_isPrefix (List.prefix_append _ _) hwithin, List.take_append_drop] at hjoin
    tokens := hr.tokens
    blend := hr.blend }

/-- The batch of an allocation. -/
def askedBatch (want seqLen : InFlight → Nat) (reqs : List InFlight) : List ExtendReq :=
  (reqs.filter (0 < want ·)).map fun r => growReq r (seqLen r)

theorem askedBatch_valid (h : KvInv total s) (hasks : ∀ r ∈ s.reqs, want r ≠ 0 → Asks want seqLen write r) :
    ∀ q ∈ askedBatch want seqLen s.reqs, q.Valid s.pool.pageSize := by
  intro q hq
  obtain ⟨r, hr, rfl⟩ := List.mem_map.mp hq
  obtain ⟨hmem, hpos⟩ := List.mem_filter.mp hr
  have hwant : want r ≠ 0 := Nat.pos_iff_ne_zero.mp (of_decide_eq_true hpos)
  rw [h.ready.pageSize]
  exact growReq_valid (h.each r hmem).offsets ((hasks r hmem hwant).lt hwant)

/-- What is allocated goes to the requests that asked for it. -/
theorem KvInv.granted (h : KvInv total s) (hasks : ∀ r ∈ s.reqs, want r ≠ 0 → Asks want seqLen write r)
    (hlast : ∀ r slots, (write r slots).req.lastNode = r.req.lastNode)
    (hrid : ∀ r slots, (write r slots).rid = r.rid)
    {result : Option (List Int) × PagedAllocator}
    (hexact : AllocExact s.pool (askedBatch want seqLen s.reqs) result)
    (hready : PoolReady s.cache.pageSize result.2) {out : List Int} (hout : result.1 = some out) :
    KvInv total { s with pool := result.2, reqs := writeSlots want write out s.reqs } := by
  obtain ⟨fresh, hlens, rfl, _, hfree⟩ := hexact.some_exact out hout
  rw [h.ready.pageSize] at hlens ⊢
  have hgranted : Granted s.cache.pageSize want seqLen write s.reqs fresh.flatten _ := granted_writeSlots
    (fun r hr hwant => (hasks r hr hwant).extendLen) fresh hlens
  have hgrow : ∀ r ∈ s.reqs, want r ≠ 0 → ∀ pages : List Int,
      pages.length = (growReq r (seqLen r)).newPages s.cache.pageSize →
        ReqInv s.cache (write r ((growReq r (seqLen r)).slots s.cache.pageSize pages)) ∧
        privatePages s.cache.pageSize (write r ((growReq r (seqLen r)).slots s.cache.pageSize pages)) =
          privatePages s.cache.pageSize r ++ pages := by
    intro r hr hwant pages hpages
    rw [(hasks r hr hwant).write]
    exact (h.each r hr).grow (hasks r hr hwant) hwant hpages
  have hpages := hgranted.pages fun r hr hwant pages hlen => (hgrow r hr hwant pages hlen).2
  exact {
    radix := by
      have hmap := hgranted.map (g := fun r => r.req.lastNode) hlast
      have hradix := h.radix
      rw [← hmap] at hradix
      exact hradix
    ready := hready
    nodes := h.nodes
    rids := by
      have hmap := hgranted.map (g := fun r => r.rid) hrid
      have hrids := h.rids
      rw [← hmap] at hrids
      exact hrids
    each := by
      intro r' hr'
      rcases hgranted.origin r' hr' with ⟨hmem, _⟩ | ⟨r, hr, hwant, pages, hlen, rfl⟩
      · exact h.each r' hmem
      · exact (hgrow r hr hwant pages hlen).1
    pages := by
      refine List.Perm.trans ?_ h.pages
      refine ((hpages.append_left _).append_left _).trans ?_
      refine List.Perm.trans ?_ (hfree.append_right _)
      rw [List.append_assoc]
      refine List.Perm.trans ?_ (List.perm_append_comm_assoc _ _ _)
      exact (List.perm_append_comm_assoc _ _ _).append_left _ }

theorem extend_asks (h : KvInv total s) : ∀ r ∈ s.reqs, KvState.extendLen r ≠ 0 →
    Asks KvState.extendLen (fun r => r.req.fillIds.length) KvState.writeCacheIndices r := by
  intro r hr hwant
  have hwait : r.allocated = false := by
    by_contra halloc
    rw [KvState.extendLen, if_pos (by simpa using halloc)] at hwant
    exact hwant rfl
  have hslots : r.slots = r.req.prefixIndices := by
    rw [InFlight.slots, hwait]
    rfl
  have hlen : KvState.extendLen r = r.req.fillIds.length - r.req.prefixIndices.length := by
    rw [KvState.extendLen, hwait]
    rfl
  exact {
    reaches := by
      have := (h.each r hr).known
      rw [hslots, hlen]
      omega
    filled := le_rfl
    chunk := fun _ => rfl
    write := fun slots => by
      rw [extended, hslots]
      rfl }

theorem decode_asks (h : KvInv total s) (rids : List Nat) : ∀ r ∈ s.reqs, KvState.decodeLen rids r ≠ 0 →
    Asks (KvState.decodeLen rids) (fun r => r.req.row.length + 1) KvState.writeDecode r := by
  intro r hr hwant
  have hrun : r.allocated = true ∧ r.chunked = false ∧ r.rid ∈ rids := by
    by_contra hnot
    exact hwant (if_neg hnot)
  have hslots : r.slots = r.req.row := by
    rw [InFlight.slots, hrun.1]
    rfl
  exact {
    reaches := by rw [hslots, KvState.decodeLen, if_pos hrun]
    filled := ((h.each r hr).filled hrun.1).trans (Nat.le_succ _)
    chunk := fun hchunk => by
      rw [hrun.2.1] at hchunk
      cases hchunk
    write := fun slots => by
      rw [extended, hslots, ← hrun.1]
      rfl }

theorem evictFromTreeCache_reqs (s : KvState) (numTokens : Nat) :
    (s.evictFromTreeCache numTokens).reqs = s.reqs := by
  unfold KvState.evictFromTreeCache
  split <;> rfl

theorem evictFromTreeCache_pageSize (s : KvState) (numTokens : Nat) :
    (s.evictFromTreeCache numTokens).cache.pageSize = s.cache.pageSize := by
  unfold KvState.evictFromTreeCache
  split <;> rfl

theorem tokensOf_askedBatch {reqs : List InFlight}
    (hasks : ∀ r ∈ reqs, want r ≠ 0 → Asks want seqLen write r) :
    tokensOf (askedBatch want seqLen reqs) = ((reqs.filter (0 < want ·)).map want).sum := by
  rw [tokensOf, askedBatch, List.map_map]
  congr 1
  refine List.map_congr_left fun r hr => ?_
  obtain ⟨hmem, hpos⟩ := List.mem_filter.mp hr
  exact (hasks r hmem (Nat.pos_iff_ne_zero.mp (of_decide_eq_true hpos))).extendLen

/-- The free pages are distinct. -/
theorem KvInv.free_nodup (h : KvInv total s) : s.pool.freeSet.Nodup := (List.nodup_append'.mp h.nodup).1

theorem alloc_asked (h : KvInv total s) (hpage : s.cache.pageSize = 1)
    (hasks : ∀ r ∈ s.reqs, want r ≠ 0 → Asks want seqLen write r) :
    AllocExact s.pool (askedBatch want seqLen s.reqs)
      (s.pool.alloc ((s.reqs.filter (0 < want ·)).map want).sum) := by
  rw [← tokensOf_askedBatch hasks]
  exact alloc_exact (h.ready.pageSize.trans hpage) h.free_nodup h.ready.sorted (askedBatch_valid h hasks)

/-- The tokens the prefills that wait are to compute. -/
def extendTokens (reqs : List InFlight) : Nat := ((reqs.filter (0 < KvState.extendLen ·)).map KvState.extendLen).sum

/-- The batch of `alloc_for_extend`. -/
abbrev extendAsked (reqs : List InFlight) : List ExtendReq :=
  askedBatch KvState.extendLen (fun r => r.req.fillIds.length) reqs

/-- What `alloc_for_extend` makes room for. -/
def extendRoom (s : KvState) : Nat :=
  if s.cache.pageSize = 1 then extendTokens s.reqs
  else extendTokens s.reqs + (s.reqs.filter (0 < KvState.extendLen ·)).length * s.pool.pageSize

theorem waits_of_extendLen (hwant : 0 < KvState.extendLen r) : r.allocated = false := by
  by_contra halloc
  rw [KvState.extendLen, if_pos (by simpa using halloc)] at hwant
  exact Nat.lt_irrefl 0 hwant

theorem allocForExtend_eq (mem : KernelMemory) (s : KvState) :
    s.allocForExtend mem =
      let room := s.evictFromTreeCache (extendRoom s)
      let result := if s.cache.pageSize = 1 then room.pool.alloc (extendTokens s.reqs)
        else room.pool.allocExtend mem ((extendAsked s.reqs).map ExtendReq.prefixLen)
          ((extendAsked s.reqs).map ExtendReq.seqLen) ((extendAsked s.reqs).map ExtendReq.lastLoc)
          (extendTokens s.reqs)
      result.1.map fun out =>
        { room with pool := result.2, reqs := writeSlots KvState.extendLen KvState.writeCacheIndices out s.reqs } := by
  have hprefixLen : (extendAsked s.reqs).map ExtendReq.prefixLen =
      (s.reqs.filter (0 < KvState.extendLen ·)).map fun r => r.req.prefixIndices.length := by
    rw [extendAsked, askedBatch, List.map_map]
    refine List.map_congr_left fun r hr => ?_
    show r.slots.length = _
    rw [InFlight.slots, waits_of_extendLen (of_decide_eq_true (List.mem_filter.mp hr).2)]
    rfl
  have hseq : (extendAsked s.reqs).map ExtendReq.seqLen =
      (s.reqs.filter (0 < KvState.extendLen ·)).map fun r => r.req.fillIds.length := by
    rw [extendAsked, askedBatch, List.map_map]
    rfl
  have hlast : (extendAsked s.reqs).map ExtendReq.lastLoc =
      (s.reqs.filter (0 < KvState.extendLen ·)).map InFlight.lastLoc := by
    rw [extendAsked, askedBatch, List.map_map]
    rfl
  rw [hprefixLen, hseq, hlast, KvState.allocForExtend, extendRoom, extendTokens]
  dsimp only
  split
  · rw [evictFromTreeCache_reqs]
  · rw [evictFromTreeCache_reqs]

theorem KvInv.allocForExtend (h : KvInv total s) (mem : KernelMemory) {s' : KvState}
    (hstep : s.allocForExtend mem = some s') : KvInv total s' := by
  have hroom := h.evictFromTreeCache (extendRoom s)
  have hreqs := evictFromTreeCache_reqs s (extendRoom s)
  have hsize := evictFromTreeCache_pageSize s (extendRoom s)
  rw [allocForExtend_eq] at hstep
  dsimp only at hstep
  rw [← hreqs, ← hsize] at hstep
  obtain ⟨out, hout, rfl⟩ := Option.map_eq_some_iff.mp hstep
  generalize s.evictFromTreeCache (extendRoom s) = room at hroom hout ⊢
  have hasks := extend_asks hroom
  refine hroom.granted hasks (fun _ _ => rfl) (fun _ _ => rfl) ?_ ?_ hout
  · split
    next hone => exact alloc_asked hroom hone hasks
    next hmany =>
      rw [extendTokens, ← tokensOf_askedBatch hasks]
      exact extendBatch_exact mem hroom.free_nodup hroom.ready.sorted (askedBatch_valid hroom hasks)
  · split
    · exact hroom.ready.alloc _
    · rw [extendTokens, ← tokensOf_askedBatch hasks]
      exact hroom.ready.extendBatch mem _

/-- The batch of `alloc_for_decode`. -/
abbrev decodeAsked (rids : List Nat) (reqs : List InFlight) : List ExtendReq :=
  askedBatch (KvState.decodeLen rids) (fun r => r.req.row.length + 1) reqs

theorem decodeLen_eq_one {rids : List Nat} (hwant : 0 < KvState.decodeLen rids r) :
    KvState.decodeLen rids r = 1 := by
  unfold KvState.decodeLen at hwant ⊢
  split
  · rfl
  next hnot =>
    rw [if_neg hnot] at hwant
    exact absurd hwant (Nat.lt_irrefl 0)

/-- What `alloc_for_decode` makes room for. -/
def decodeRoom (rids : List Nat) (s : KvState) : Nat :=
  if s.cache.pageSize = 1 then (s.reqs.filter (0 < KvState.decodeLen rids ·)).length
  else (s.reqs.filter (0 < KvState.decodeLen rids ·)).length * s.pool.pageSize

theorem allocForDecode_eq (mem : KernelMemory) (rids : List Nat) (s : KvState) :
    s.allocForDecode mem rids =
      let room := s.evictFromTreeCache (decodeRoom rids s)
      let result := if s.cache.pageSize = 1 then
          room.pool.alloc (s.reqs.filter (0 < KvState.decodeLen rids ·)).length
        else decodeBatch mem room.pool (decodeAsked rids s.reqs)
      result.1.map fun out =>
        { room with pool := result.2, reqs := writeSlots (KvState.decodeLen rids) KvState.writeDecode out s.reqs } := by
  have hseq : (decodeAsked rids s.reqs).map ExtendReq.seqLen =
      (s.reqs.filter (0 < KvState.decodeLen rids ·)).map fun r => r.req.row.length + 1 := by
    rw [decodeAsked, askedBatch, List.map_map]
    rfl
  have hlast : (decodeAsked rids s.reqs).map ExtendReq.lastLoc =
      (s.reqs.filter (0 < KvState.decodeLen rids ·)).map InFlight.lastLoc := by
    rw [decodeAsked, askedBatch, List.map_map]
    rfl
  rw [KvState.allocForDecode, decodeRoom]
  dsimp only [decodeBatch]
  rw [hseq, hlast]
  split
  · rw [evictFromTreeCache_reqs]
  · rw [evictFromTreeCache_reqs]

theorem KvInv.allocForDecode (h : KvInv total s) (mem : KernelMemory) (rids : List Nat) {s' : KvState}
    (hstep : s.allocForDecode mem rids = some s') : KvInv total s' := by
  have hroom := h.evictFromTreeCache (decodeRoom rids s)
  have hreqs := evictFromTreeCache_reqs s (decodeRoom rids s)
  have hsize := evictFromTreeCache_pageSize s (decodeRoom rids s)
  rw [allocForDecode_eq] at hstep
  dsimp only at hstep
  rw [← hreqs, ← hsize] at hstep
  obtain ⟨out, hout, rfl⟩ := Option.map_eq_some_iff.mp hstep
  generalize s.evictFromTreeCache (decodeRoom rids s) = room at hroom hout ⊢
  have hasks := decode_asks hroom rids
  have hones : (room.reqs.filter (0 < KvState.decodeLen rids ·)).length =
      ((room.reqs.filter (0 < KvState.decodeLen rids ·)).map (KvState.decodeLen rids)).sum := by
    rw [List.map_congr_left fun r hr => decodeLen_eq_one (of_decide_eq_true (List.mem_filter.mp hr).2)]
    simp
  refine hroom.granted hasks (fun _ _ => rfl) (fun _ _ => rfl) ?_ ?_ hout
  · split
    next hone =>
      rw [hones]
      exact alloc_asked hroom hone hasks
    next hmany =>
      refine decodeBatch_exact mem ?_ hroom.free_nodup hroom.ready.sorted (askedBatch_valid hroom hasks) ?_
      · have hpos := room.cache.pageSize_pos
        rw [hroom.ready.pageSize]
        omega
      · intro q hq
        obtain ⟨r, hr, rfl⟩ := List.mem_map.mp hq
        obtain ⟨hmem, hpos⟩ := List.mem_filter.mp hr
        have hone := decodeLen_eq_one (of_decide_eq_true hpos)
        have hreach := (hasks r hmem (by omega)).reaches
        rw [hone] at hreach
        exact hreach.symm
  · split
    · exact hroom.ready.alloc _
    · exact hroom.ready.decodeBatch mem _

end Allocation

/-! ## What a request hands over to the tree -/

section HandOver

variable {c : RadixCache Nat} {a : PagedAllocator} {holds others : List Nat} {r : InFlight}
  {P m old n : Nat} {slots : List Int}

theorem pySlice_eq_take (slots : List Int) (m n : Nat) : pySlice slots m n = (slots.drop m).take (n - m) := by
  rw [pySlice, List.drop_take]

theorem pagesIn_slice (hP : 0 < P) (hm : P ∣ m) (hn : P ∣ n) (hmn : m ≤ n) (slots : List Int) :
    pagesIn P (slots.drop m) = pagesIn P (pySlice slots m n) ++ pagesIn P (slots.drop n) := by
  rw [pagesIn_split hP (Nat.dvd_sub hn hm) (slots.drop m), pySlice_eq_take, List.drop_drop,
    Nat.add_sub_cancel' hmn]

/-- Freed from `old` on are the pages from the boundary before `old` on. -/
theorem release_slice (h : PoolReady P a) (hP : 0 < P) (hm : m = pageAligned P old)
    (hpages : InPages P (slots.drop m)) (hn : P ∣ n) (hlen : n ≤ slots.length)
    (hnodup : (pagesIn P (pySlice slots m n)).Nodup) :
    (a.release (pySlice slots old n)).freeSet.Perm (pagesIn P (pySlice slots m n) ++ a.freeSet) := by
  have hold : m + old % P = old := by
    rw [hm, pageAligned]
    exact Nat.div_add_mod' old P
  have hmod := Nat.mod_lt old hP
  have hslice : InPages P (pySlice slots m n) := by
    rw [pySlice_eq_take]
    exact hpages.take _
  have hdrop : pySlice slots old n = (pySlice slots m n).drop (old % P) := by
    rw [pySlice, pySlice, List.drop_drop, hold]
  have hwhole : pagesFrom P (pySlice slots m n) (old % P) = pagesIn P (pySlice slots m n) := by
    unfold pagesFrom
    split
    next => rw [Nat.div_eq_of_lt hmod, Nat.zero_mul, List.drop_zero]
    next hge =>
      -- less than a page from one boundary to the next is nothing
      have hlength : (pySlice slots m n).length = n - m := by
        rw [pySlice, List.length_drop, List.length_take_of_le hlen]
      have hdvd : P ∣ n - m := Nat.dvd_sub hn (hm ▸ pageAligned_dvd P old)
      have hzero : n - m = 0 := Nat.eq_zero_of_dvd_of_lt hdvd (by omega)
      rw [List.eq_nil_of_length_eq_zero (hlength.trans hzero), pagesIn_nil hP]
  rw [hdrop, ← hwhole]
  exact release_drop h hP (old % P) hslice (hwhole.symm ▸ hnodup)

/-- What a request has matched is present. -/
theorem HoldsPath.present {req : CachedReq} (h : RadixInv holds c) (hpath : HoldsPath c req)
    (hdvd : c.pageSize ∣ req.lastMatchedPrefixLen) (hknown : req.lastMatchedPrefixLen ≤ req.fillIds.length)
    (now : Int) {key : RadixKey Nat} {value : List Int} (hextra : key.extraKey = req.extraKey)
    (halign : c.pageSize ∣ key.len) (hpre : req.fillIds.take req.lastMatchedPrefixLen <+: key.tokenIds) :
    req.lastMatchedPrefixLen ≤ (c.insert now key value).1 := by
  rcases hpath with ⟨hzero, _⟩ | hnode
  · omega
  · have hlen : (req.fillIds.take req.lastMatchedPrefixLen).length = req.lastMatchedPrefixLen :=
      List.length_take_of_le hknown
    have hstored := hnode.stored h.shaped
    rw [← hextra] at hstored
    have hexact : InsertExact c key value _ _ := insert_exact h now halign
    have := hexact.longest _ _ hstored (hlen.symm ▸ hdvd) hpre
    omega

/-- An insertion of the slots of a request, and the slots of what was already present freed: the
request is left with the pages behind the key. -/
structure HandedOver (c : RadixCache Nat) (a : PagedAllocator) (r : InFlight) (upTo : Nat)
    (present : Nat) (c' : RadixCache Nat) (a' : PagedAllocator) : Prop where
  present_le : present ≤ upTo
  nodes : NodesInPages c'.pageSize c'.children
  pages : (a'.freeSet ++ (treePages c'.pageSize c'.children ++
    pagesIn c.pageSize (r.slots.drop upTo))).Perm
      (a.freeSet ++ (treePages c.pageSize c.children ++ privatePages c.pageSize r))

theorem insert_handsOver (h : RadixInv holds c) (hready : PoolReady c.pageSize a)
    (hnodes : NodesInPages c.pageSize c.children) (hr : ReqInv c r)
    (hnodup : (privatePages c.pageSize r).Nodup) (now : Int) {key : RadixKey Nat}
    (hextra : key.extraKey = r.req.extraKey) (halign : c.pageSize ∣ key.len)
    (hpre : r.req.fillIds.take r.req.lastMatchedPrefixLen <+: key.tokenIds)
    (hle : key.len ≤ r.slots.length) :
    HandedOver c a r key.len (c.insert now key (r.slots.take key.len)).1
      (c.insert now key (r.slots.take key.len)).2
      (a.release (pySlice r.slots r.req.prefixIndices.length (c.insert now key (r.slots.take key.len)).1)) := by
  have hP := c.pageSize_pos
  have hexact : InsertExact c key (r.slots.take key.len) _ _ := insert_exact h now halign
  have hmn : r.req.lastMatchedPrefixLen ≤ (c.insert now key (r.slots.take key.len)).1 :=
    hr.path.present h hr.matched_dvd (hr.matched_le.trans hr.known) now hextra halign hpre
  have hwithin := hexact.within
  have hdvd := hexact.aligned
  have hpages : InPages c.pageSize (r.slots.drop r.req.lastMatchedPrefixLen) := hr.pages
  have hvalue : (r.slots.take key.len).length = key.len := List.length_take_of_le hle
  have hleaf : InPages c.pageSize
      ((r.slots.take key.len).drop (c.insert now key (r.slots.take key.len)).1) := by
    have hrest := (hpages.drop hP (Nat.dvd_sub hdvd hr.matched_dvd)).take
      (key.len - (c.insert now key (r.slots.take key.len)).1)
    rwa [List.drop_drop, Nat.add_sub_cancel' hmn, ← pySlice_eq_take, pySlice] at hrest
  have hadds := insert_pages h hnodes now halign hvalue hleaf
  have hfirst := pagesIn_slice hP hr.matched_dvd hdvd hmn r.slots
  have hsecond := pagesIn_slice hP hdvd halign hwithin r.slots
  have hfreed : (pagesIn c.pageSize (pySlice r.slots r.req.lastMatchedPrefixLen
      (c.insert now key (r.slots.take key.len)).1)).Nodup := by
    rw [privatePages, privateSlots, hfirst] at hnodup
    exact (List.nodup_append'.mp hnodup).1
  have hrelease := release_slice hready hP hr.aligned hpages hdvd (hwithin.trans hle) hfreed
  refine ⟨hwithin, hadds.nodes, List.perm_iff_count.mpr fun g => ?_⟩
  have hcountFree := hrelease.count_eq g
  have hcountTree := hadds.pages.count_eq g
  rw [privatePages, privateSlots, hfirst, hsecond]
  simp only [List.count_append, pySlice] at hcountFree hcountTree ⊢
  omega

end HandOver

end QCFuse.Guarantees
