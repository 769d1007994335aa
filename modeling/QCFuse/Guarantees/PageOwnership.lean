import QCFuse.Source.PageMetadata

/-!
# Every page has one owner

While no batch confirms a key that is there, no rank is cleared under an unfinished batch, pages suffice, a looked-up
page is not written before it is read, looked-up keys are there up to the first that is not, and no metadata is
reloaded, every page is free, owned or reserved once, and what is read is what was written.
-/

set_option autoImplicit false

namespace QCFuse.Guarantees

open QCFuse.Source QCFuse.Library

/-! ### Metadata -/

namespace RankMetadata

/-- The pages that the metadata knows of. -/
def tracked (m : RankMetadata) : List Nat := m.freePages ++ m.keyToIndex.entries.map Prod.snd

/-- The same metadata, but for the order of the keys. -/
structure SameKeys (m m' : RankMetadata) : Prop where
  numPages : m'.numPages = m.numPages
  freePages : m'.freePages = m.freePages
  ordered : m'.ordered = m.ordered
  entries : m'.keyToIndex.entries.Perm m.keyToIndex.entries

variable {m m' : RankMetadata}

theorem SameKeys.refl (m : RankMetadata) : SameKeys m m := ⟨rfl, rfl, rfl, .refl _⟩

theorem SameKeys.trans {m'' : RankMetadata} (h : SameKeys m m') (h' : SameKeys m' m'') : SameKeys m m'' :=
  ⟨h'.numPages.trans h.numPages, h'.freePages.trans h.freePages, h'.ordered.trans h.ordered,
    h'.entries.trans h.entries⟩

theorem SameKeys.get? (h : SameKeys m m') (key : String) : m'.keyToIndex.get? key = m.keyToIndex.get? key :=
  Dict.get?_of_perm h.entries key

theorem SameKeys.tracked_perm (h : SameKeys m m') : (tracked m').Perm (tracked m) := by
  rw [tracked, tracked, h.freePages]
  exact (h.entries.map Prod.snd).append_left m.freePages

theorem moveToEnd_spec (h : m.ordered = true) (key : String) :
    ∃ moved, m.moveToEnd key = .ok moved ∧ SameKeys m moved :=
  ⟨_, if_pos h, rfl, rfl, rfl, m.keyToIndex.moveToEnd_perm key⟩

theorem getPageIndices_spec (h : m.ordered = true) (keys : List String) :
    ∃ looked, m.getPageIndices keys = (.ok (keys.map m.keyToIndex.get?), looked) ∧ SameKeys m looked := by
  induction keys generalizing m with
  | nil => exact ⟨m, rfl, .refl m⟩
  | cons key keys ih =>
    rw [Source.RankMetadata.getPageIndices, List.map_cons]
    cases hget : m.keyToIndex.get? key with
    | none =>
      obtain ⟨looked, hlooked, hsame⟩ := ih h
      exact ⟨looked, by rw [hlooked]; rfl, hsame⟩
    | some page =>
      obtain ⟨moved, hmoved, hsame⟩ := moveToEnd_spec h key
      obtain ⟨looked, hlooked, hsame'⟩ := ih (hsame.ordered.trans h)
      have hgets : moved.keyToIndex.get? = m.keyToIndex.get? := funext hsame.get?
      refine ⟨looked, ?_, hsame.trans hsame'⟩
      rw [hmoved]
      dsimp only
      rw [hlooked, hgets]
      rfl

/-- Pages left the metadata, each with its key where it had one. -/
structure Took (m m' : RankMetadata) (pages : List Nat) : Prop where
  numPages : m'.numPages = m.numPages
  ordered : m'.ordered = m.ordered
  tracked : (tracked m).Perm (pages ++ tracked m')
  entries : ∀ e ∈ m'.keyToIndex.entries, e ∈ m.keyToIndex.entries

theorem SameKeys.took (h : SameKeys m m') : Took m m' [] :=
  ⟨h.numPages, h.ordered, h.tracked_perm.symm, fun _ he => h.entries.mem_iff.mp he⟩

theorem Took.trans {m'' : RankMetadata} {pages pages' : List Nat} (h : Took m m' pages) (h' : Took m' m'' pages') :
    Took m m'' (pages ++ pages') :=
  ⟨h'.numPages.trans h.numPages, h'.ordered.trans h.ordered,
    List.append_assoc pages pages' _ ▸ h.tracked.trans (h'.tracked.append_left pages),
    fun e he => h.entries e (h'.entries e he)⟩

theorem popPage_spec (h : m.ordered = true) (hroom : tracked m ≠ []) :
    ∃ page popped, m.popPage = (.ok page, popped) ∧ Took m popped [page] := by
  rw [Source.RankMetadata.popPage]
  cases hlast : m.freePages.getLast? with
  | some page =>
    refine ⟨page, _, rfl, rfl, rfl, ?_, fun e he => he⟩
    have hfree : m.freePages = m.freePages.dropLast ++ [page] := (List.dropLast_append_getLast? page hlast).symm
    rw [tracked, hfree, List.dropLast_concat, List.append_assoc]
    exact (List.perm_append_comm_assoc _ _ _)
  | none =>
    have hfree : m.freePages = [] := List.getLast?_eq_none_iff.mp hlast
    dsimp only
    rw [if_pos h]
    cases hentries : m.keyToIndex.entries with
    | nil => exact absurd (by rw [tracked, hfree, hentries]; rfl) hroom
    | cons e entries =>
      have hrest := m.keyToIndex.entries_erase_head hentries
      refine ⟨e.2, _, rfl, rfl, rfl, ?_, fun e' he' => ?_⟩
      · rw [tracked, tracked, hentries, hrest]
        exact List.perm_append_comm_assoc m.freePages [e.2] _
      · exact hentries ▸ List.mem_cons_of_mem e (hrest ▸ he')

theorem popPages_spec (h : m.ordered = true) {n : Nat} (hroom : n ≤ (tracked m).length) :
    ∃ pages popped, Source.RankMetadata.popPages n m = (.ok pages, popped) ∧ pages.length = n ∧
      Took m popped pages := by
  induction n generalizing m with
  | zero => exact ⟨[], m, rfl, rfl, (SameKeys.refl m).took⟩
  | succ n ih =>
    obtain ⟨page, popped, hpopped, htook⟩ := popPage_spec h (List.ne_nil_of_length_pos (by omega))
    have hlength := htook.tracked.length_eq
    rw [List.length_append, List.length_singleton] at hlength
    obtain ⟨pages, popped', hpopped', hpages, htook'⟩ := ih (htook.ordered.trans h) (by omega)
    refine ⟨page :: pages, popped', ?_, by rw [List.length_cons, hpages], htook.trans htook'⟩
    rw [Source.RankMetadata.popPages, hpopped]
    dsimp only
    rw [hpopped']
    rfl

/-- How many of the keys are new. -/
def newKeys (m : RankMetadata) (keys : List String) : Nat := (keys.map m.keyToIndex.get?).count none

theorem reserve_spec (h : m.ordered = true) {keys : List String} (hroom : newKeys m keys ≤ (tracked m).length) :
    ∃ pages reserved, m.reserveAndAllocatePageIndices keys =
      (.ok (Source.RankMetadata.fillResults (keys.map m.keyToIndex.get?) pages), reserved) ∧
        pages.length = newKeys m keys ∧ Took m reserved pages := by
  obtain ⟨looked, hlooked, hsame⟩ := getPageIndices_spec h keys
  obtain ⟨pages, popped, hpopped, hlength, htook⟩ :=
    popPages_spec (hsame.ordered.trans h) (hroom.trans_eq hsame.tracked_perm.length_eq.symm)
  refine ⟨pages, popped, ?_, hlength, hsame.took.trans htook⟩
  rw [Source.RankMetadata.reserveAndAllocatePageIndices, hlooked]
  dsimp only
  rw [← newKeys, hpopped]
  rfl

/-- Without a page, a new key raises and nothing else happens. -/
theorem reserve_empty (h : m.ordered = true) {keys : List String} (hempty : tracked m = [])
    (hnew : newKeys m keys ≠ 0) :
    ∃ e reserved, m.reserveAndAllocatePageIndices keys = (.error e, reserved) ∧ SameKeys m reserved := by
  obtain ⟨looked, hlooked, hsame⟩ := getPageIndices_spec h keys
  have hnone : tracked looked = [] := by
    rw [← List.length_eq_zero_iff, hsame.tracked_perm.length_eq, hempty]
    rfl
  obtain ⟨hfree, hkeys⟩ := List.append_eq_nil_iff.mp hnone
  obtain ⟨n, hn⟩ := Nat.exists_eq_succ_of_ne_zero hnew
  refine ⟨.keyError "dictionary is empty", looked, ?_, hsame⟩
  rw [Source.RankMetadata.reserveAndAllocatePageIndices, hlooked]
  dsimp only
  rw [← newKeys, hn, Source.RankMetadata.popPages, Source.RankMetadata.popPage, hfree, List.getLast?_nil]
  dsimp only
  rw [if_pos (hsame.ordered.trans h), List.map_eq_nil_iff.mp hkeys]
  rfl

/-- A batch writes the pages that were taken for it. -/
theorem reservedPages_page {β : Type} {items : List (String × β)} {found : List (Option Nat)} {pages : List Nat}
    (hlength : items.length = found.length) (hpages : pages.length = found.count none) :
    (reservedPages items (Source.RankMetadata.fillResults found pages)).map (·.page) = pages ∧
      ∀ reserved ∈ reservedPages items (Source.RankMetadata.fillResults found pages), reserved.written = none := by
  induction found generalizing items pages with
  | nil =>
    obtain rfl := List.length_eq_zero_iff.mp hpages
    exact ⟨by simp [reservedPages, Source.RankMetadata.fillResults],
      by simp [reservedPages, Source.RankMetadata.fillResults]⟩
  | cons entry found ih =>
    obtain ⟨⟨key, value⟩, items, rfl⟩ := List.exists_cons_of_length_eq_add_one hlength
    rw [List.length_cons, List.length_cons, Nat.add_right_cancel_iff] at hlength
    cases entry with
    | some page => exact ih hlength (by rw [hpages, List.count_cons_of_ne (by simp)])
    | none =>
      rw [List.count_cons_self] at hpages
      obtain ⟨page, pages, rfl⟩ := List.exists_cons_of_length_eq_add_one hpages
      rw [List.length_cons, Nat.add_right_cancel_iff] at hpages
      obtain ⟨hmap, hwritten⟩ := ih hlength hpages
      have hcons : reservedPages ((key, value) :: items)
          (Source.RankMetadata.fillResults (none :: found) (page :: pages)) =
            ⟨key, page, value, none⟩ :: reservedPages items (Source.RankMetadata.fillResults found pages) := rfl
      rw [hcons]
      refine ⟨by rw [List.map_cons, hmap], fun reserved hreserved => ?_⟩
      rcases List.mem_cons.mp hreserved with rfl | hreserved
      · rfl
      · exact hwritten reserved hreserved

/-- Keys that are not there get their pages. -/
theorem confirmKeys_spec (h : m.ordered = true) {written : List (String × Nat)}
    (hnodup : (written.map Prod.fst).Nodup) (hnew : ∀ e ∈ written, e.1 ∉ m.keyToIndex.keys) :
    ∃ confirmed, m.confirmKeys written = (.ok (), confirmed) ∧ confirmed.numPages = m.numPages ∧
      confirmed.ordered = true ∧ confirmed.freePages = m.freePages ∧
        confirmed.keyToIndex.entries.Perm (m.keyToIndex.entries ++ written) := by
  induction written generalizing m with
  | nil => exact ⟨m, rfl, rfl, h, rfl, by rw [List.append_nil]⟩
  | cons e written ih =>
    obtain ⟨key, page⟩ := e
    rw [List.map_cons, List.nodup_cons] at hnodup
    have hkey := hnew _ List.mem_cons_self
    have hset := m.keyToIndex.entries_set_of_notMem page hkey
    obtain ⟨moved, hmoved, hsame⟩ :=
      @moveToEnd_spec { m with keyToIndex := m.keyToIndex.set key page } h key
    have hperm : moved.keyToIndex.entries.Perm (m.keyToIndex.entries ++ [(key, page)]) := hset ▸ hsame.entries
    have hrest : ∀ e ∈ written, e.1 ∉ moved.keyToIndex.keys := by
      intro e he hmem
      obtain ⟨e', he', heq⟩ := List.mem_map.mp hmem
      rcases List.mem_append.mp (hperm.mem_iff.mp he') with hold | hnewKey
      · exact hnew e (List.mem_cons_of_mem _ he) (heq ▸ List.mem_map_of_mem hold)
      · obtain rfl := List.mem_singleton.mp hnewKey
        exact hnodup.1 (List.mem_map.mpr ⟨e, he, heq.symm⟩)
    obtain ⟨confirmed, hconfirmed, hnum, hordered, hfree, hentries⟩ := ih (hsame.ordered.trans h) hnodup.2 hrest
    refine ⟨confirmed, ?_, hnum.trans hsame.numPages, hordered, hfree.trans hsame.freePages, ?_⟩
    · rw [Source.RankMetadata.confirmKeys, hmoved]
      exact hconfirmed
    · exact hentries.trans ((hperm.append_right written).trans (by rw [List.append_assoc]; exact .refl _))

theorem releasePages_spec {pages : List Nat} (hnodup : (m.freePages ++ pages).Nodup) :
    pages.foldl Source.RankMetadata.releasePage m = { m with freePages := m.freePages ++ pages } := by
  induction pages generalizing m with
  | nil => rw [List.append_nil]; rfl
  | cons page pages ih =>
    have hpage : page ∉ m.freePages := fun hmem =>
      (List.disjoint_of_nodup_append hnodup) hmem List.mem_cons_self
    rw [List.foldl_cons, Source.RankMetadata.releasePage, if_neg hpage, ih (by simpa using hnodup)]
    simp

theorem confirmWrite_spec (h : m.ordered = true) {written : List (String × Nat)} {release : List Nat}
    (hkeys : (written.map Prod.fst).Nodup) (hnew : ∀ e ∈ written, e.1 ∉ m.keyToIndex.keys)
    (hrelease : (m.freePages ++ release).Nodup) :
    ∃ confirmed, m.confirmWrite written release = (.ok (), confirmed) ∧ confirmed.numPages = m.numPages ∧
      confirmed.ordered = true ∧ confirmed.keyToIndex.entries.Perm (m.keyToIndex.entries ++ written) ∧
        (tracked confirmed).Perm (tracked m ++ (written.map Prod.snd ++ release)) := by
  obtain ⟨confirmed, hconfirmed, hnum, hordered, hfree, hentries⟩ := confirmKeys_spec h hkeys hnew
  have hfreed := releasePages_spec (hfree.symm ▸ hrelease)
  refine ⟨_, by rw [Source.RankMetadata.confirmWrite, hconfirmed], by rw [hfreed]; exact hnum,
    by rw [hfreed]; exact hordered, by rw [hfreed]; exact hentries, ?_⟩
  rw [hfreed, List.perm_iff_count]
  intro page
  have hcount := (hentries.map Prod.snd).count_eq page
  simp only [tracked, hfree, List.map_append, List.count_append] at hcount ⊢
  omega

theorem deleteKey_spec (hnodup : (tracked m).Nodup) (key : String) : Took m (m.deleteKey key) [] := by
  unfold Source.RankMetadata.deleteKey
  cases hget : m.keyToIndex.get? key with
  | none => exact (SameKeys.refl m).took
  | some page =>
    have hperm := m.keyToIndex.entries_perm hget
    have hpage : page ∉ m.freePages := fun hmem =>
      List.disjoint_of_nodup_append hnodup hmem ((hperm.map Prod.snd).mem_iff.mpr List.mem_cons_self)
    dsimp only
    rw [Source.RankMetadata.releasePage, if_neg hpage]
    refine ⟨rfl, rfl, ?_, fun e he => (List.mem_filter.mp he).1⟩
    rw [List.nil_append, tracked, tracked, List.append_assoc]
    exact (hperm.map Prod.snd).append_left m.freePages

theorem deleteKeys_spec (hnodup : (tracked m).Nodup) (keys : List String) : Took m (m.deleteKeys keys) [] := by
  induction keys generalizing m with
  | nil => exact (SameKeys.refl m).took
  | cons key keys ih =>
    have hkey := deleteKey_spec hnodup key
    exact hkey.trans (ih (hkey.tracked.nodup_iff.mp hnodup))

end RankMetadata

/-! ### The rank -/

/-- A call of the metadata. -/
inductive MetadataCall where
  | reserve (keys : List String)
  | confirm (written : List (String × Nat)) (release : List Nat)
  | getPages (keys : List String)
  | delete (keys : List String)
  | clear

def MetadataCall.succeeds (m : RankMetadata) : MetadataCall → Bool
  | .reserve keys => (m.reserveAndAllocatePageIndices keys).1.isOk
  | .confirm written release => (m.confirmWrite written release).1.isOk
  | .getPages keys => (m.getPageIndices keys).1.isOk
  | .delete _ | .clear => true

section Rank

open RankMetadata

variable {β : Type}

/-- The pages of unfinished batches. -/
def reservedBy (s : PageStore β) : List Nat := s.batches.flatten.map (·.page)

/-- Each page has one owner, no call fails that would not fail before a reload, and what is reported as read holds the
bytes that were last written for its key when it was looked up. -/
structure PagesKept (s : PageStore β) : Prop where
  pages : (tracked s.metadata ++ reservedBy s).Perm (List.range s.metadata.numPages)
  reloads : ∀ call : MetadataCall, call.succeeds { s.metadata with ordered := true } → call.succeeds s.metadata
  reads : ∀ get ∈ s.gets, ∀ i : Nat, get.results[i]? = some true →
    ∃ bytes, get.values[i]? = some (some bytes) ∧ get.promised[i]? = some (some bytes)

/-- A new rank. -/
def FreshRank (s : PageStore β) : Prop :=
  ∃ numPages file, s = ⟨.new numPages, none, file, [], [], fun _ => none⟩

/-- The keys that `confirm_write` is given. -/
def writtenOf (batch : List (ReservedPage β)) : List (ReservedPage β) :=
  batch.filter fun reserved => reserved.written = some true

/-- When a step does not go wrong. -/
def PageGuard (s : PageStore β) : PageLabel β → Prop
  | .reserve items => newKeys s.metadata (items.map Prod.fst) ≤ (tracked s.metadata).length ∨ tracked s.metadata = []
  | .write b i _ _ => ∀ batch reserved, s.batches[b]? = some batch → batch[i]? = some reserved →
      ∀ get ∈ s.gets, ∀ read ∈ get.pending, read.2.2 ≠ reserved.page
  | .confirm b => ∀ batch, s.batches[b]? = some batch → ((writtenOf batch).map (·.key)).Nodup ∧
      ∀ reserved ∈ writtenOf batch, reserved.key ∉ s.metadata.keyToIndex.keys
  | .lookUp keys => ∃ hits misses, keys = hits ++ misses ∧ (∀ key ∈ hits, key ∈ s.metadata.keyToIndex.keys) ∧
      ∀ key ∈ misses, key ∉ s.metadata.keyToIndex.keys
  | .clear => s.batches.flatten = []
  | .reload => False
  | .read _ _ _ | .finish _ | .delete _ | .save => True

/-- A get whose reads to come find what they were promised. -/
structure GetInv (file : Nat → β) (get : BatchGet β) : Prop where
  values : get.values.length = get.promised.length
  results : get.results.length = get.promised.length
  pending : ∀ read ∈ get.pending, read.1 = read.2.1 ∧ get.promised[read.2.1]? = some (some (file read.2.2))
  done : ∀ i : Nat, get.results[i]? = some true →
    ∃ bytes, get.values[i]? = some (some bytes) ∧ get.promised[i]? = some (some bytes)

structure PageInv (s : PageStore β) : Prop where
  ordered : s.metadata.ordered = true
  pages : (tracked s.metadata ++ reservedBy s).Perm (List.range s.metadata.numPages)
  owned : ∀ e ∈ s.metadata.keyToIndex.entries, s.lastWritten e.1 = some (s.file e.2)
  written : ∀ reserved ∈ s.batches.flatten, reserved.written = some true → s.file reserved.page = reserved.value
  gets : ∀ get ∈ s.gets, GetInv s.file get

theorem PageInv.kept {s : PageStore β} (h : PageInv s) : PagesKept s where
  pages := h.pages
  reloads call hcall := by
    have hsame : { s.metadata with ordered := true } = s.metadata := by rw [← h.ordered]
    exact hsame ▸ hcall
  reads get hget := (h.gets get hget).done

theorem PageInv.nodup {s : PageStore β} (h : PageInv s) : (tracked s.metadata ++ reservedBy s).Nodup :=
  h.pages.nodup_iff.mpr List.nodup_range

theorem pageInv_fresh {s : PageStore β} (h : FreshRank s) : PageInv s := by
  obtain ⟨numPages, file, rfl⟩ := h
  refine ⟨rfl, ?_, nofun, nofun, nofun⟩
  simp [tracked, reservedBy, Source.RankMetadata.new, Dict.empty]

/-! ### Steps of a batch -/

theorem set_perm {α : Type} {xs : List α} {b : Nat} (hb : b < xs.length) (x : α) :
    (xs.set b x).Perm (x :: xs.eraseIdx b) := by
  have hlong : b < (xs.set b x).length := by rw [List.length_set]; exact hb
  have hperm := List.getElem_cons_eraseIdx_perm hlong
  rw [List.getElem_set_self, List.eraseIdx_set_eq] at hperm
  exact hperm.symm

/-- An entry of a list of lists, and what stays when it is replaced. -/
theorem exists_flatten_rest {α : Type} {xss : List (List α)} {xs : List α} {b i : Nat} {x : α}
    (hb : xss[b]? = some xs) (hi : xs[i]? = some x) : ∃ rest, xss.flatten.Perm (x :: rest) ∧
      ∀ y, (xss.set b (xs.set i y)).flatten.Perm (y :: rest) := by
  obtain ⟨hblt, rfl⟩ := List.getElem?_eq_some_iff.mp hb
  obtain ⟨hilt, rfl⟩ := List.getElem?_eq_some_iff.mp hi
  refine ⟨xss[b].eraseIdx i ++ (xss.eraseIdx b).flatten, ?_, fun y => ?_⟩
  · have hinner := (List.getElem_cons_eraseIdx_perm hilt).symm
    exact (List.getElem_cons_eraseIdx_perm hblt).symm.flatten.trans (hinner.append_right _)
  · exact (set_perm hblt _).flatten.trans ((set_perm hilt y).append_right _)

theorem pageInv_reserve {s : PageStore β} (h : PageInv s) (items : List (String × β))
    (hguard : PageGuard s (.reserve items)) : PageInv (s.reserve items) := by
  have hlookups : ((items.map Prod.fst).map s.metadata.keyToIndex.get?).length = items.length := by
    rw [List.length_map, List.length_map]
  by_cases hroom : newKeys s.metadata (items.map Prod.fst) ≤ (tracked s.metadata).length
  · obtain ⟨pages, reserved, hreserve, hlength, htook⟩ := reserve_spec h.ordered hroom
    obtain ⟨hpages, hnone⟩ := reservedPages_page hlookups.symm hlength
    rw [PageStore.reserve, hreserve]
    refine ⟨htook.ordered.trans h.ordered, ?_, fun e he => h.owned e (htook.entries e he), ?_, h.gets⟩
    · have hreserved : reservedBy { s with
          metadata := reserved
          batches := s.batches ++ [reservedPages items
            (Source.RankMetadata.fillResults ((items.map Prod.fst).map s.metadata.keyToIndex.get?) pages)] } =
            reservedBy s ++ pages := by
        rw [reservedBy, List.flatten_append, List.map_append, List.flatten_singleton, hpages]
        rfl
      rw [htook.numPages, hreserved]
      refine .trans ?_ h.pages
      rw [List.perm_iff_count]
      intro page
      have hcount := htook.tracked.count_eq page
      simp only [List.count_append] at hcount ⊢
      omega
    · intro r hr hwritten
      rw [List.flatten_append, List.flatten_singleton] at hr
      rcases List.mem_append.mp hr with hold | hnew
      · exact h.written r hold hwritten
      · rw [hnone r hnew] at hwritten
        cases hwritten
  · have hempty := hguard.resolve_left hroom
    have hnew : newKeys s.metadata (items.map Prod.fst) ≠ 0 := fun hzero => hroom (hzero ▸ Nat.zero_le _)
    obtain ⟨e, reserved, hreserve, hsame⟩ := reserve_empty h.ordered hempty hnew
    rw [PageStore.reserve, hreserve]
    refine ⟨hsame.ordered.trans h.ordered, ?_, fun e he => h.owned e (hsame.entries.mem_iff.mp he), h.written, h.gets⟩
    rw [hsame.numPages]
    exact (hsame.tracked_perm.append_right _).trans h.pages

theorem pageInv_write {s s' : PageStore β} (h : PageInv s) {b i : Nat} {ok : Bool} {torn : β}
    (hguard : PageGuard s (.write b i ok torn)) (hstep : s.writePage b i ok torn = some s') : PageInv s' := by
  obtain ⟨batch, hb, hstep⟩ := Option.bind_eq_some_iff.mp hstep
  obtain ⟨reserved, hi, hstep⟩ := Option.bind_eq_some_iff.mp hstep
  split at hstep
  · cases hstep
  obtain ⟨rest, hperm, hset⟩ := exists_flatten_rest hb hi
  have hset := hset { reserved with written := some ok }
  have hnodup := h.nodup
  have hpages : (reservedBy s).Perm (reserved.page :: rest.map (·.page)) := hperm.map ReservedPage.page
  rw [List.Perm.nodup_iff (hpages.append_left _), List.nodup_append] at hnodup
  obtain ⟨-, hreserved, hdisjoint⟩ := hnodup
  have howned : ∀ e ∈ s.metadata.keyToIndex.entries, e.2 ≠ reserved.page := fun e he =>
    hdisjoint e.2 (List.mem_append_right _ (List.mem_map_of_mem he)) _ List.mem_cons_self
  have hrest : ∀ r ∈ rest, r.page ≠ reserved.page := fun r hr heq =>
    (List.nodup_cons.mp hreserved).1 (heq ▸ List.mem_map_of_mem hr)
  cases hstep
  refine ⟨h.ordered, .trans ?_ h.pages, fun e he => ?_, fun r hr hwritten => ?_, fun get hget => ?_⟩
  · exact ((hset.map ReservedPage.page).trans hpages.symm).append_left _
  · dsimp only
    rw [h.owned e he, Function.update_of_ne (howned e he)]
  · rcases List.mem_cons.mp (hset.mem_iff.mp hr) with rfl | hr
    · dsimp only
      rw [Option.some_inj.mp hwritten, if_pos rfl, Function.update_self]
    · dsimp only
      rw [Function.update_of_ne (hrest r hr)]
      exact h.written r (hperm.mem_iff.mpr (List.mem_cons_of_mem _ hr)) hwritten
  · have hinv := h.gets get hget
    refine ⟨hinv.values, hinv.results, fun read hread => ?_, hinv.done⟩
    dsimp only
    rw [Function.update_of_ne (hguard batch reserved hb hi get hget read hread)]
    exact hinv.pending read hread

/-- The last bytes of the keys of a batch, and of the others. -/
theorem lastWritten_fold {written : List (ReservedPage β)} (hnodup : (written.map (·.key)).Nodup)
    (last : String → Option β) {last' : String → Option β}
    (hlast : written.foldl (fun (last : String → Option β) reserved =>
      Function.update last reserved.key (some reserved.value)) last = last') :
    (∀ reserved ∈ written, last' reserved.key = some reserved.value) ∧
      ∀ key ∉ written.map (·.key), last' key = last key := by
  subst hlast
  induction written generalizing last with
  | nil => exact ⟨nofun, fun _ _ => rfl⟩
  | cons first written ih =>
    rw [List.map_cons, List.nodup_cons] at hnodup
    obtain ⟨hmem, hother⟩ := ih hnodup.2 (Function.update last first.key (some first.value))
    refine ⟨fun reserved hreserved => ?_, fun key hkey => ?_⟩
    · rcases List.mem_cons.mp hreserved with rfl | hreserved
      · rw [List.foldl_cons, hother _ hnodup.1, Function.update_self]
      · exact hmem reserved hreserved
    · rw [List.map_cons, List.mem_cons, not_or] at hkey
      rw [List.foldl_cons, hother key hkey.2, Function.update_of_ne hkey.1]

/-- The pages that `confirm_write` is to release. -/
def failedOf (batch : List (ReservedPage β)) : List (ReservedPage β) :=
  batch.filter fun reserved => reserved.written = some false

/-- A batch whose writes are done is what was written and what failed. -/
theorem writtenOf_failedOf_perm {batch : List (ReservedPage β)}
    (hdone : ¬ (batch.any fun reserved => reserved.written.isNone) = true) :
    (writtenOf batch ++ failedOf batch).Perm batch := by
  have hfailed : failedOf batch = batch.filter fun reserved => !decide (reserved.written = some true) := by
    refine List.filter_congr fun r hr => ?_
    cases hok : r.written with
    | none => exact absurd (List.any_eq_true.mpr ⟨r, hr, by rw [hok]; rfl⟩) hdone
    | some ok => cases ok <;> rfl
  rw [hfailed]
  exact List.filter_append_perm _ batch

theorem pageInv_confirm {s s' : PageStore β} (h : PageInv s) {b : Nat} (hguard : PageGuard s (.confirm b))
    (hstep : s.confirm b = some s') : PageInv s' := by
  obtain ⟨batch, hb, hstep⟩ := Option.bind_eq_some_iff.mp hstep
  obtain ⟨hkeys, hnew⟩ := hguard batch hb
  split at hstep
  · cases hstep
  next hdone =>
  obtain ⟨hblt, hbatch⟩ := List.getElem?_eq_some_iff.mp hb
  have hflat : s.batches.flatten.Perm (batch ++ (s.batches.eraseIdx b).flatten) :=
    hbatch ▸ (List.getElem_cons_eraseIdx_perm hblt).symm.flatten
  have hpages : (reservedBy s).Perm (((writtenOf batch).map (·.page) ++ (failedOf batch).map (·.page)) ++
      (s.batches.eraseIdx b).flatten.map (·.page)) := by
    rw [← List.map_append, ← List.map_append]
    exact (hflat.trans ((writtenOf_failedOf_perm hdone).symm.append_right _)).map _
  have hnodup := (hpages.append_left (tracked s.metadata)).nodup_iff.mp h.nodup
  have hpairs : (((writtenOf batch).map fun r => (r.key, r.page)).map Prod.fst).Nodup := by
    rw [List.map_map]
    exact hkeys
  have hpairsNew : ∀ e ∈ (writtenOf batch).map fun r => (r.key, r.page), e.1 ∉ s.metadata.keyToIndex.keys := by
    intro e he
    obtain ⟨r, hr, rfl⟩ := List.mem_map.mp he
    exact hnew r hr
  have hrelease : (s.metadata.freePages ++ (failedOf batch).map (·.page)).Nodup := by
    refine hnodup.sublist ((List.sublist_append_left _ _).append ?_)
    exact (List.sublist_append_right _ _).trans (List.sublist_append_left _ _)
  obtain ⟨confirmed, hconfirmed, hnum, hordered, hentries, htracked⟩ :=
    confirmWrite_spec h.ordered hpairs hpairsNew hrelease
  have hmetadata := congrArg Prod.snd hconfirmed
  cases hstep
  obtain ⟨hlast, hother⟩ := lastWritten_fold hkeys s.lastWritten rfl
  refine ⟨?_, ?_, fun e he => ?_, fun r hr => ?_, h.gets⟩
  · rw [← writtenOf, ← failedOf, hmetadata]
    exact hordered
  · rw [← writtenOf, ← failedOf, hmetadata, hnum]
    refine .trans ?_ h.pages
    rw [List.map_map] at htracked
    rw [List.perm_iff_count]
    intro page
    have hcount := hpages.count_eq page
    have hcount' := htracked.count_eq page
    have hmap : (Prod.snd ∘ fun r : ReservedPage β => (r.key, r.page)) = (·.page) := rfl
    rw [hmap] at hcount'
    simp only [reservedBy, List.count_append] at hcount hcount' ⊢
    omega
  · rw [← writtenOf, ← failedOf, hmetadata] at he
    rcases List.mem_append.mp (hentries.mem_iff.mp he) with hold | hadded
    · have hnot : e.1 ∉ (writtenOf batch).map (·.key) := fun hmem => by
        obtain ⟨r, hr, heq⟩ := List.mem_map.mp hmem
        exact hnew r hr (heq ▸ List.mem_map_of_mem hold)
      exact (hother e.1 hnot).trans (h.owned e hold)
    · obtain ⟨r, hr, rfl⟩ := List.mem_map.mp hadded
      obtain ⟨hmem, hok⟩ := List.mem_filter.mp hr
      have hfile := h.written r (hflat.mem_iff.mpr (List.mem_append_left _ hmem)) (of_decide_eq_true hok)
      exact (hlast r hr).trans (congrArg some hfile.symm)
  · exact h.written r (hflat.mem_iff.mpr (List.mem_append_right _ hr))

/-! ### Steps of a get -/

theorem batchIndices_hitsFirst (pages : List Nat) (n : Nat) :
    batchIndices (pages.map some ++ List.replicate n none) = pages.zipIdx.map fun (page, i) => (i, page) := by
  have hsome : batchIndices (pages.map some) = pages.zipIdx.map fun entry => (entry.2, entry.1) := by
    rw [batchIndices, List.zipIdx_map, List.filterMap_map, ← List.filterMap_eq_map]
    rfl
  have hnone : ((List.replicate n (none : Option Nat)).zipIdx (0 + (pages.map some).length)).filterMap
      (fun entry => entry.1.map (entry.2, ·)) = [] := by
    rw [List.filterMap_eq_nil_iff]
    rintro ⟨page, i⟩ he
    obtain rfl : page = none := (List.mem_replicate.mp (List.fst_mem_of_mem_zipIdx he)).2
    rfl
  rw [batchIndices] at hsome ⊢
  rw [List.zipIdx_append, List.filterMap_append, hsome]
  exact (congrArg _ hnone).trans (List.append_nil _)

/-- Where the keys that are there come first, each read goes to its own place. -/
theorem pending_hitsFirst {pages : List Nat} {n : Nat} {read : Nat × Nat × Nat}
    (h : read ∈ (batchIndices (pages.map some ++ List.replicate n none)).zipIdx.map
      fun ((i, page), j) => (j, i, page)) : read.1 = read.2.1 ∧ pages[read.2.1]? = some read.2.2 := by
  obtain ⟨⟨⟨i, page⟩, j⟩, hmem, rfl⟩ := List.mem_map.mp h
  rw [batchIndices_hitsFirst, List.mem_zipIdx_iff_getElem?, List.getElem?_map, List.getElem?_zipIdx] at hmem
  cases hpage : pages[j]? with
  | none =>
    rw [hpage] at hmem
    cases hmem
  | some page' =>
    rw [hpage] at hmem
    simp only [Option.map_some, Option.some_inj, Prod.mk.injEq, Nat.zero_add] at hmem
    obtain ⟨rfl, rfl⟩ := hmem
    exact ⟨rfl, hpage⟩

theorem pageInv_lookUp {s : PageStore β} (h : PageInv s) {keys : List String} (hguard : PageGuard s (.lookUp keys)) :
    PageInv (s.lookUp keys) := by
  obtain ⟨hits, misses, rfl, hhits, hmisses⟩ := hguard
  obtain ⟨looked, hlooked, hsame⟩ := getPageIndices_spec h.ordered (hits ++ misses)
  obtain ⟨pages, hpages⟩ : ∃ pages : List Nat, hits.map s.metadata.keyToIndex.get? = pages.map some := by
    refine ⟨hits.map fun key => (s.metadata.keyToIndex.get? key).getD 0, ?_⟩
    rw [List.map_map]
    refine List.map_congr_left fun key hkey => ?_
    obtain ⟨page, hpage⟩ := (Dict.mem_keys_iff _ key).mp (hhits key hkey)
    rw [Function.comp_apply, hpage]
    rfl
  have hnone : misses.map s.metadata.keyToIndex.get? = List.replicate misses.length none := by
    rw [List.eq_replicate_iff]
    refine ⟨List.length_map _, fun page hpage => ?_⟩
    obtain ⟨key, hkey, rfl⟩ := List.mem_map.mp hpage
    exact (Dict.get?_eq_none_iff _ key).mpr (hmisses key hkey)
  rw [PageStore.lookUp, hlooked]
  refine ⟨hsame.ordered.trans h.ordered, ?_, fun e he => h.owned e (hsame.entries.mem_iff.mp he), h.written,
    fun get hget => ?_⟩
  · rw [hsame.numPages]
    exact (hsame.tracked_perm.append_right _).trans h.pages
  rcases List.mem_append.mp hget with hold | hnew
  · exact h.gets get hold
  obtain rfl := List.mem_singleton.mp hnew
  refine ⟨by rw [List.length_replicate, List.length_map], by rw [List.length_replicate, List.length_map],
    fun read hread => ?_, fun i hi => ?_⟩
  · dsimp only at hread ⊢
    rw [List.map_append, hpages, hnone] at hread
    obtain ⟨hplace, hpage⟩ := pending_hitsFirst hread
    refine ⟨hplace, ?_⟩
    have hget : (hits.map s.metadata.keyToIndex.get?)[read.2.1]? = some (some read.2.2) := by
      rw [hpages, List.getElem?_map, hpage]
      rfl
    rw [List.getElem?_map] at hget
    obtain ⟨key, hkey, hentry⟩ := Option.map_eq_some_iff.mp hget
    have hlast := h.owned (key, read.2.2) ((Dict.get?_eq_some_iff _ _ _).mp hentry)
    have hkeys : (hits ++ misses)[read.2.1]? = some key := by
      rw [List.getElem?_append_left (List.getElem?_eq_some_iff.mp hkey).1, hkey]
    rw [List.getElem?_map, hkeys, Option.map_some, hlast]
  · dsimp only at hi
    rw [List.getElem?_replicate] at hi
    split at hi <;> cases hi

theorem getInv_read {file : Nat → β} {get : BatchGet β} (h : GetInv file get) {n j i page : Nat}
    (hn : get.pending[n]? = some (j, i, page)) (ok : Bool) : GetInv file { get with
      pending := get.pending.eraseIdx n
      values := if ok then get.values.set j (some (file page)) else get.values
      results := get.results.set i ok } := by
  obtain ⟨hplace, hpromised⟩ := h.pending _ (List.mem_of_getElem? hn)
  obtain rfl : j = i := hplace
  have hlong : j < get.promised.length := (List.getElem?_eq_some_iff.mp hpromised).1
  refine ⟨?_, by rw [List.length_set, h.results], fun read hread => h.pending read (List.mem_of_mem_eraseIdx hread),
    fun k hk => ?_⟩
  · dsimp only
    split
    · rw [List.length_set, h.values]
    · exact h.values
  · dsimp only at hk ⊢
    by_cases hkj : j = k
    · subst hkj
      rw [List.getElem?_set_self (h.results ▸ hlong)] at hk
      obtain rfl := Option.some_inj.mp hk
      exact ⟨file page, by rw [if_pos rfl, List.getElem?_set_self (h.values ▸ hlong)], hpromised⟩
    · rw [List.getElem?_set_ne hkj] at hk
      obtain ⟨bytes, hvalue, hpromise⟩ := h.done k hk
      refine ⟨bytes, ?_, hpromise⟩
      split
      · rw [List.getElem?_set_ne hkj, hvalue]
      · exact hvalue

/-! ### Runs -/

theorem pageInv_step {s s' : PageStore β} {label : PageLabel β} (h : PageInv s) (hguard : PageGuard s label)
    (hstep : PageStore.step label s = some s') : PageInv s' := by
  cases label with
  | reserve items =>
    cases hstep
    exact pageInv_reserve h items hguard
  | write b i ok torn => exact pageInv_write h hguard hstep
  | confirm b => exact pageInv_confirm h hguard hstep
  | lookUp keys =>
    cases hstep
    exact pageInv_lookUp h hguard
  | read g n ok =>
    obtain ⟨get, hg, hstep⟩ := Option.bind_eq_some_iff.mp hstep
    obtain ⟨⟨j, i, page⟩, hn, rfl⟩ := Option.map_eq_some_iff.mp hstep
    refine ⟨h.ordered, h.pages, h.owned, h.written, fun get' hget' => ?_⟩
    rcases List.mem_or_eq_of_mem_set hget' with hold | rfl
    · exact h.gets get' hold
    · exact getInv_read (h.gets get (List.mem_of_getElem? hg)) hn ok
  | finish g =>
    cases hstep
    exact ⟨h.ordered, h.pages, h.owned, h.written, fun get hget => h.gets get (List.mem_of_mem_eraseIdx hget)⟩
  | delete keys =>
    cases hstep
    have htook := deleteKeys_spec (List.nodup_append.mp h.nodup).1 keys
    refine ⟨htook.ordered.trans h.ordered, ?_, fun e he => h.owned e (htook.entries e he), h.written, h.gets⟩
    dsimp only
    rw [htook.numPages]
    exact (htook.tracked.symm.append_right _).trans h.pages
  | clear =>
    cases hstep
    refine ⟨h.ordered, ?_, nofun, h.written, h.gets⟩
    have hnone : reservedBy { s with metadata := s.metadata.clearAll } = [] := by
      rw [reservedBy, hguard]
      rfl
    rw [hnone, List.append_nil, tracked]
    exact .of_eq (List.append_nil _)
  | save =>
    cases hstep
    exact ⟨h.ordered, h.pages, h.owned, h.written, h.gets⟩
  | reload => exact absurd hguard id

theorem rank_next {s s' : PageStore β} (label : PageLabel β) (h : PageStore.machine.Reach PageGuard FreshRank s)
    (hguard : PageGuard s label) (hstep : PageStore.step label s = some s') :
    PageStore.machine.Reach PageGuard FreshRank s' :=
  .step h hguard hstep

end Rank

def twoPages : PageStore Nat := ⟨.new 2, none, fun _ => 0, [], [], fun _ => none⟩

end QCFuse.Guarantees
