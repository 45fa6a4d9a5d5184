import BirakFormal.Gateway.Listing
import BirakFormal.Shared.Searching

/-!
# Listing multipart uploads

Uploads of one key differ by their IDs, and those with a delimiter behind the listed prefix are rolled up
into common prefixes, which have no ID. Both are listed in one order, by key and then by ID, and a page goes
on behind the pair of markers that the last one gave.
-/

namespace BirakFormal

open scoped ByteOrder

structure StagedUpload where
  key : Bytes
  id : Bytes
  initiated : Int
  deriving DecidableEq, Repr

inductive UploadItem where
  | upload (u : StagedUpload)
  | common (key : Bytes)
  deriving DecidableEq, Repr

namespace UploadItem

def mark : UploadItem → Bytes ×ₗ Bytes
  | .upload u => toLex (u.key, u.id)
  | .common key => toLex (key, [])

def upload? : UploadItem → Option StagedUpload
  | .upload u => some u
  | .common _ => none

def common? : UploadItem → Option Bytes
  | .upload _ => none
  | .common key => some key

end UploadItem

def rolledUp (listed delimiter : Bytes) (u : StagedUpload) : Option Bytes :=
  if delimiter = [] then none
  else
    let rest := if listed.isPrefixOf u.key then u.key.drop listed.length else u.key
    (stringsIndex delimiter rest).map fun idx => listed ++ rest.take (idx + delimiter.length)

def uploadItems (listed delimiter : Bytes) : List Bytes → List StagedUpload → List UploadItem
  | _, [] => []
  | seen, u :: uploads =>
    match rolledUp listed delimiter u with
    | none => .upload u :: uploadItems listed delimiter seen uploads
    | some cp =>
      if cp ∈ seen then uploadItems listed delimiter seen uploads
      else .common cp :: uploadItems listed delimiter (cp :: seen) uploads

structure UploadPage where
  infos : List StagedUpload
  prefixes : List Bytes
  truncated : Bool
  nextKey : Bytes
  nextUploadID : Bytes
  deriving DecidableEq, Repr

def sortUploads (items : List UploadItem) : List UploadItem := items.insertionSort fun a b => ¬ b.mark < a.mark

def pageUploads (uploads : List StagedUpload) (listed delimiter keyMarker uploadIDMarker : Bytes) (maxUploads : Nat) :
    UploadPage :=
  let items := sortUploads (uploadItems listed delimiter [] uploads)
  let items :=
    if keyMarker ≠ [] ∨ uploadIDMarker ≠ [] then
      items.drop (Searching.searchList (fun it => toLex (keyMarker, uploadIDMarker) < it.mark) items)
    else items
  let truncated := decide (0 < maxUploads ∧ maxUploads < items.length)
  let items := if truncated then items.take maxUploads else items
  let last := if truncated then items.getLast?.map UploadItem.mark else none
  { infos := items.filterMap UploadItem.upload?
    prefixes := items.filterMap UploadItem.common?
    truncated
    nextKey := (last.map fun m => (ofLex m).1).getD []
    nextUploadID := (last.map fun m => (ofLex m).2).getD [] }

/-- The pages that a client gets that goes on with the markers of each page, at most `fuel` of them. -/
def followUploads (uploads : List StagedUpload) (listed delimiter : Bytes) (maxUploads : Nat) : Nat → Bytes → Bytes → List UploadPage
  | 0, _, _ => []
  | fuel + 1, keyMarker, uploadIDMarker =>
    let page := pageUploads uploads listed delimiter keyMarker uploadIDMarker maxUploads
    page :: if page.truncated then followUploads uploads listed delimiter maxUploads fuel page.nextKey page.nextUploadID else []

section
variable {listed delimiter : Bytes}

theorem rolledUp_eq {u : StagedUpload} (h : listed <+: u.key) : rolledUp listed delimiter u = commonPrefix listed delimiter u.key := by
  obtain ⟨tail, htail⟩ := h
  unfold rolledUp commonPrefix
  split
  · rfl
  · rw [if_pos (List.isPrefixOf_iff_prefix.mpr ⟨tail, htail⟩)]
    refine congrArg (fun f => Option.map f _) (funext fun idx => ?_)
    rw [← htail, List.drop_left, Nat.add_assoc, List.take_length_add_append]

variable {uploads : List StagedUpload}

theorem mem_uploadItems_upload {seen : List Bytes} {u : StagedUpload} :
    .upload u ∈ uploadItems listed delimiter seen uploads ↔ u ∈ uploads ∧ rolledUp listed delimiter u = none := by
  induction uploads generalizing seen with
  | nil => simp [uploadItems]
  | cons v uploads ih =>
    unfold uploadItems
    cases hv : rolledUp listed delimiter v with
    | none =>
      rw [List.mem_cons, ih, UploadItem.upload.injEq, List.mem_cons]
      constructor
      · rintro (rfl | ⟨hmem, hnone⟩)
        · exact ⟨.inl rfl, hv⟩
        · exact ⟨.inr hmem, hnone⟩
      · rintro ⟨rfl | hmem, hnone⟩
        · exact .inl rfl
        · exact .inr ⟨hmem, hnone⟩
    | some cp =>
      have hrest : (u ∈ uploads ∧ rolledUp listed delimiter u = none) ↔ (u ∈ v :: uploads ∧ rolledUp listed delimiter u = none) := by
        rw [List.mem_cons]
        constructor
        · exact fun h => ⟨.inr h.1, h.2⟩
        · rintro ⟨rfl | hmem, hnone⟩
          · rw [hv] at hnone
            cases hnone
          · exact ⟨hmem, hnone⟩
      dsimp only
      split
      · rw [ih, hrest]
      · rw [List.mem_cons, ih, hrest]
        simp

theorem mem_uploadItems_common {seen : List Bytes} {cp : Bytes} :
    .common cp ∈ uploadItems listed delimiter seen uploads ↔
      cp ∉ seen ∧ ∃ u ∈ uploads, rolledUp listed delimiter u = some cp := by
  induction uploads generalizing seen with
  | nil => simp [uploadItems]
  | cons v uploads ih =>
    unfold uploadItems
    cases hv : rolledUp listed delimiter v with
    | none => simp [ih, hv]
    | some c =>
      dsimp only
      by_cases hc : c ∈ seen
      · rw [if_pos hc, ih]
        simp only [List.mem_cons, exists_eq_or_imp, hv, Option.some.injEq]
        constructor
        · exact fun h => ⟨h.1, .inr h.2⟩
        · rintro ⟨hno, rfl | hsome⟩
          · exact absurd hc hno
          · exact ⟨hno, hsome⟩
      · rw [if_neg hc, List.mem_cons, ih]
        simp only [UploadItem.common.injEq, List.mem_cons, not_or, exists_eq_or_imp, hv, Option.some.injEq]
        constructor
        · rintro (rfl | ⟨⟨-, hno⟩, hsome⟩)
          · exact ⟨hc, .inl rfl⟩
          · exact ⟨hno, .inr hsome⟩
        · rintro ⟨hno, rfl | hsome⟩
          · exact .inl rfl
          · by_cases heq : cp = c
            · exact .inl heq
            · exact .inr ⟨⟨heq, hno⟩, hsome⟩

theorem uploadItems_nodup (h : uploads.Nodup) (seen : List Bytes) :
    (uploadItems listed delimiter seen uploads).Nodup := by
  induction uploads generalizing seen with
  | nil => exact List.nodup_nil
  | cons v uploads ih =>
    obtain ⟨hv, hrest⟩ := List.nodup_cons.mp h
    unfold uploadItems
    split
    · exact List.nodup_cons.mpr ⟨fun hmem => hv (mem_uploadItems_upload.mp hmem).1, ih hrest seen⟩
    · split
      · exact ih hrest seen
      · refine List.nodup_cons.mpr ⟨fun hmem => ?_, ih hrest _⟩
        exact (mem_uploadItems_common.mp hmem).1 List.mem_cons_self

theorem uploadItems_length (seen : List Bytes) (uploads : List StagedUpload) :
    (uploadItems listed delimiter seen uploads).length ≤ uploads.length := by
  induction uploads generalizing seen with
  | nil => exact Nat.le_refl 0
  | cons v uploads ih =>
    have hseen := ih seen
    unfold uploadItems
    split
    · exact Nat.succ_le_succ hseen
    · next cp _ =>
      have hadded := ih (cp :: seen)
      split
      · exact Nat.le_succ_of_le hseen
      · exact Nat.succ_le_succ hadded

theorem uploadItems_marks (hids : (uploads.map StagedUpload.id).Nodup)
    (hkeys : ∀ u ∈ uploads, listed <+: u.key) {a b : UploadItem} (ha : a ∈ uploadItems listed delimiter [] uploads)
    (hb : b ∈ uploadItems listed delimiter [] uploads) (h : a.mark = b.mark) : a = b := by
  have happart : ∀ (u : StagedUpload) (cp : Bytes), .upload u ∈ uploadItems listed delimiter [] uploads →
      .common cp ∈ uploadItems listed delimiter [] uploads → u.key ≠ cp := by
    intro u cp hu hcp heq
    obtain ⟨hmem, hnone⟩ := mem_uploadItems_upload.mp hu
    obtain ⟨-, v, hv, hsome⟩ := mem_uploadItems_common.mp hcp
    rw [rolledUp_eq (hkeys v hv)] at hsome
    rw [rolledUp_eq (hkeys u hmem), heq, (commonPrefix_idem (hkeys v hv) hsome).1] at hnone
    cases hnone
  cases a with
  | upload u =>
    cases b with
    | upload v =>
      have hid : u.id = v.id := congrArg (fun m => (ofLex m).2) h
      rw [List.inj_on_of_nodup_map hids (mem_uploadItems_upload.mp ha).1 (mem_uploadItems_upload.mp hb).1 hid]
    | common cp => exact absurd (congrArg (fun m => (ofLex m).1) h) (happart u cp ha hb)
  | common cp =>
    cases b with
    | upload v => exact absurd (congrArg (fun m => (ofLex m).1) h).symm (happart v cp hb ha)
    | common c => exact congrArg UploadItem.common (congrArg (fun m => (ofLex m).1) h)

theorem uploadItems_key_ne (hkeys : ∀ u ∈ uploads, u.key ≠ [] ∧ listed <+: u.key)
    {x : UploadItem} (hx : x ∈ uploadItems listed delimiter [] uploads) : (ofLex x.mark).1 ≠ [] := by
  cases x with
  | upload u => exact (hkeys u (mem_uploadItems_upload.mp hx).1).1
  | common cp =>
    obtain ⟨-, v, hv, hsome⟩ := mem_uploadItems_common.mp hx
    rw [rolledUp_eq (hkeys v hv).2] at hsome
    exact (commonPrefix_idem (hkeys v hv).2 hsome).2.1

end

section
variable {items : List UploadItem}

theorem rest_empty_marker (hne : ∀ x ∈ items, (ofLex x.mark).1 ≠ []) :
    Paging.rest UploadItem.mark items (toLex ([], [])) = items := by
  rw [Paging.rest, List.filter_eq_self]
  intro x hx
  obtain ⟨b, key, hkey⟩ := List.exists_cons_of_ne_nil (hne x hx)
  rw [decide_eq_true_iff, Prod.Lex.lt_iff]
  left
  rw [hkey]
  exact List.nil_lt_cons b key

theorem mem_sortUploads {x : UploadItem} : x ∈ sortUploads items ↔ x ∈ items :=
  (List.perm_insertionSort _ items).mem_iff

theorem sortUploads_ascending (hnodup : items.Nodup) (hmarks : ∀ a ∈ items, ∀ b ∈ items, a.mark = b.mark → a = b) :
    (sortUploads items).Pairwise fun a b => a.mark < b.mark := by
  have hsorted : (sortUploads items).Pairwise fun a b => ¬ b.mark < a.mark := by
    have : Std.Total fun a b : UploadItem => ¬ b.mark < a.mark :=
      ⟨fun a b => (le_total a.mark b.mark).imp not_lt.mpr not_lt.mpr⟩
    have : IsTrans UploadItem fun a b => ¬ b.mark < a.mark :=
      ⟨fun a b c hab hbc => not_lt.mpr (le_trans (not_lt.mp hab) (not_lt.mp hbc))⟩
    exact List.pairwise_insertionSort _ items
  have hdistinct : (sortUploads items).Nodup := (List.perm_insertionSort _ items).nodup_iff.mpr hnodup
  apply (hsorted.and hdistinct).imp_of_mem
  intro a b ha hb hab
  apply lt_of_le_of_ne (not_lt.mp hab.1)
  intro heq
  exact hab.2 (hmarks a (mem_sortUploads.mp ha) b (mem_sortUploads.mp hb) heq)

def uploadPage (page : List UploadItem × Option (Bytes ×ₗ Bytes)) : UploadPage where
  infos := page.1.filterMap UploadItem.upload?
  prefixes := page.1.filterMap UploadItem.common?
  truncated := page.2.isSome
  nextKey := (page.2.map fun m => (ofLex m).1).getD []
  nextUploadID := (page.2.map fun m => (ofLex m).2).getD []

variable {uploads : List StagedUpload} {listed delimiter : Bytes}

theorem pageUploads_eq (hitems : sortUploads (uploadItems listed delimiter [] uploads) = items)
    (hsorted : items.Pairwise fun a b => a.mark < b.mark) (hne : ∀ x ∈ items, (ofLex x.mark).1 ≠ []) {maxUploads : Nat}
    (hmax : 0 < maxUploads) (marker : Bytes ×ₗ Bytes) :
    pageUploads uploads listed delimiter (ofLex marker).1 (ofLex marker).2 maxUploads =
      uploadPage (Paging.page UploadItem.mark items maxUploads marker) := by
  have hrest : (if (ofLex marker).1 ≠ [] ∨ (ofLex marker).2 ≠ [] then
      items.drop (Searching.searchList (fun it => marker < it.mark) items) else items) = Paging.rest UploadItem.mark items marker := by
    split
    · apply Searching.drop_searchList
      apply hsorted.imp
      intro a b hab ha
      exact decide_eq_true (lt_trans (of_decide_eq_true ha) hab)
    · next hempty =>
      have hmarker : marker = toLex ([], []) := by
        apply ofLex_inj.mp
        exact Prod.ext (by_contra fun h => hempty (.inl h)) (by_contra fun h => hempty (.inr h))
      rw [hmarker, rest_empty_marker hne]
  unfold pageUploads
  dsimp only
  rw [hitems]
  have hlex : toLex ((ofLex marker).1, (ofLex marker).2) = marker := rfl
  rw [hlex, hrest, Paging.page]
  by_cases hcut : maxUploads < (Paging.rest UploadItem.mark items marker).length
  · have hlast : (((Paging.rest UploadItem.mark items marker).take maxUploads).getLast?.map UploadItem.mark).isSome = true := by
      rw [Option.isSome_map, List.getLast?_isSome, ne_eq, List.take_eq_nil_iff, not_or]
      exact ⟨by omega, List.ne_nil_of_length_pos (by omega)⟩
    simp [uploadPage, hmax, hcut, hlast]
  · simp [uploadPage, hmax, hcut]

theorem followUploads_chunks (hitems : sortUploads (uploadItems listed delimiter [] uploads) = items)
    (hsorted : items.Pairwise fun a b => a.mark < b.mark) (hne : ∀ x ∈ items, (ofLex x.mark).1 ≠ []) {maxUploads : Nat}
    (hmax : 0 < maxUploads) {fuel : Nat} {marker : Bytes ×ₗ Bytes}
    (hfuel : (Paging.rest UploadItem.mark items marker).length < fuel) :
    ∃ chunks : List (List UploadItem), (followUploads uploads listed delimiter maxUploads fuel (ofLex marker).1 (ofLex marker).2).map
          (fun p => (p.infos, p.prefixes)) =
        chunks.map (fun c => (c.filterMap UploadItem.upload?, c.filterMap UploadItem.common?)) ∧
      chunks.flatten = Paging.rest UploadItem.mark items marker ∧
      (followUploads uploads listed delimiter maxUploads fuel (ofLex marker).1 (ofLex marker).2).getLast?.map
        UploadPage.truncated = some false := by
  induction fuel generalizing marker with
  | zero => exact absurd hfuel (Nat.not_lt_zero _)
  | succ fuel ih =>
    unfold followUploads
    rw [pageUploads_eq hitems hsorted hne hmax marker]
    rcases Paging.page_cases hsorted hmax marker with hall | ⟨chunk, next, hpage, hchunk, hrest⟩
    · rw [hall]
      exact ⟨[Paging.rest UploadItem.mark items marker], rfl, List.flatten_singleton, rfl⟩
    · have hshort : (Paging.rest UploadItem.mark items next).length < fuel := by
        have hpos := List.length_pos_iff.mpr hchunk
        rw [hrest, List.length_append] at hfuel
        omega
      obtain ⟨chunks, hpages, hflat, hlast⟩ := ih hshort
      rw [hpage]
      refine ⟨chunk :: chunks, ?_, ?_, ?_⟩
      · exact congrArg (List.cons _) hpages
      · rw [List.flatten_cons, hflat, hrest]
      · have hlater : (uploadPage (chunk, some next)).truncated = true := rfl
        dsimp only
        rw [if_pos hlater, List.getLast?_cons]
        obtain ⟨page, hpage', htrunc⟩ := Option.map_eq_some_iff.mp hlast
        have hfollow : (followUploads uploads listed delimiter maxUploads fuel (uploadPage (chunk, some next)).nextKey
            (uploadPage (chunk, some next)).nextUploadID).getLast? = some page := hpage'
        rw [hfollow, Option.map_some]
        exact congrArg some htrunc

end

/-- A client that follows the markers of the pages from empty ones gets, page by page, a listing in strict
order of key and upload ID, that has every upload that is not rolled up and every common prefix. -/
theorem upload_listing_complete (uploads : List StagedUpload) (listed delimiter : Bytes) (maxUploads fuel : Nat)
    (hids : (uploads.map StagedUpload.id).Nodup) (hkeys : ∀ u ∈ uploads, u.key ≠ [] ∧ listed <+: u.key)
    (hmax : 1 ≤ maxUploads) (hfuel : uploads.length < fuel) :
    ∃ chunks : List (List UploadItem),
      (followUploads uploads listed delimiter maxUploads fuel [] []).map (fun p => (p.infos, p.prefixes)) =
        chunks.map (fun c => (c.filterMap UploadItem.upload?, c.filterMap UploadItem.common?)) ∧
      (chunks.flatten.Pairwise fun a b => a.mark < b.mark) ∧
      (∀ u, .upload u ∈ chunks.flatten ↔ u ∈ uploads ∧ rolledUp listed delimiter u = none) ∧
      (∀ cp, .common cp ∈ chunks.flatten ↔ ∃ u ∈ uploads, rolledUp listed delimiter u = some cp) ∧
      (followUploads uploads listed delimiter maxUploads fuel [] []).getLast?.map UploadPage.truncated = some false := by
  have hsorted : (sortUploads (uploadItems listed delimiter [] uploads)).Pairwise fun a b => a.mark < b.mark :=
    sortUploads_ascending (uploadItems_nodup hids.of_map []) fun a ha b hb => uploadItems_marks hids (fun u hu => (hkeys u hu).2) ha hb
  have hne : ∀ x ∈ sortUploads (uploadItems listed delimiter [] uploads), (ofLex x.mark).1 ≠ [] := fun x hx =>
    uploadItems_key_ne hkeys (mem_sortUploads.mp hx)
  have hall := rest_empty_marker hne
  have hlen : (Paging.rest UploadItem.mark (sortUploads (uploadItems listed delimiter [] uploads)) (toLex ([], []))).length <
      fuel := by
    rw [hall, sortUploads, List.length_insertionSort]
    exact Nat.lt_of_le_of_lt (uploadItems_length [] uploads) hfuel
  obtain ⟨chunks, hpages, hflat, hlast⟩ := followUploads_chunks rfl hsorted hne hmax hlen
  rw [hall] at hflat
  refine ⟨chunks, hpages, hflat ▸ hsorted, fun u => ?_, fun cp => ?_, hlast⟩
  · rw [hflat, mem_sortUploads, mem_uploadItems_upload]
  · rw [hflat, mem_sortUploads, mem_uploadItems_common]
    simp

/-- Two uploads of `b` and one of `a/x`, listed one at a time with the delimiter `/`. -/
def threeUploads : List StagedUpload := [⟨[98], [50], 0⟩, ⟨[97, 47, 120], [51], 0⟩, ⟨[98], [49], 0⟩]

theorem upload_listing_complete_three :
    followUploads threeUploads [] [47] 1 4 [] [] =
        [⟨[], [[97, 47]], true, [97, 47], []⟩, ⟨[⟨[98], [49], 0⟩], [], true, [98], [49]⟩, ⟨[⟨[98], [50], 0⟩], [], false, [], []⟩] ∧
      ∃ chunks : List (List UploadItem),
        (followUploads threeUploads [] [47] 1 4 [] []).map (fun p => (p.infos, p.prefixes)) =
          chunks.map (fun c => (c.filterMap UploadItem.upload?, c.filterMap UploadItem.common?)) ∧
        (chunks.flatten.Pairwise fun a b => a.mark < b.mark) ∧
        (∀ u, .upload u ∈ chunks.flatten ↔ u ∈ threeUploads ∧ rolledUp [] [47] u = none) ∧
        (∀ cp, .common cp ∈ chunks.flatten ↔ ∃ u ∈ threeUploads, rolledUp [] [47] u = some cp) ∧
        (followUploads threeUploads [] [47] 1 4 [] []).getLast?.map UploadPage.truncated = some false :=
  ⟨by decide +kernel, upload_listing_complete threeUploads [] [47] 1 4 (by decide) (by decide) (by decide) (by decide)⟩

end BirakFormal
