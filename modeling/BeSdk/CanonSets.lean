/-
BeSdk.CanonSets — the sets of the canonical encoding.

`sortedSet` keeps one element for each encoding. Where elements of one encoding are equal
(`ToldApart`, as texts are) the list has exactly the elements it was made from
(`mem_sortedSet`) and depends on nothing but them (`sortedSet_congr`).
-/
import BeSdk.CanonTheorems

namespace BeSdk.Canon

/-- Values of one encoding sort alike. -/
theorem sorted_eq_of_encode_eq {v w : Json} {raw : Bytes} (hv : v.Distinct) (hw : w.Distinct)
    (h : encode v = .ok raw) (h' : encode w = .ok raw) : sorted v = sorted w := by
  have hdecode : ∀ {x : Json}, x.Distinct → encode x = .ok raw → decode raw = some (sorted x) := by
    intro x hx henc
    obtain ⟨hplain, hraw⟩ := encode_eq_ok_iff.mp henc
    exact decode_of_utf8Encode ((plain_sorted x).mpr hplain) ((distinct_sorted x).mpr hx) hraw
  exact Option.some.inj ((hdecode hv h).symm.trans (hdecode hw h'))

/-- What is told apart by its encoding. -/
def ToldApart (items : List Json) : Prop :=
  ∀ v ∈ items, ∀ w ∈ items, ∀ raw, encode v = .ok raw → encode w = .ok raw → v = w

/-- The elements of a set with their encodings. -/
theorem sortedSet_spec {items out : List Json} (hapart : ToldApart items)
    (h : sortedSet items = .ok out) : ∃ entries : List (Bytes × Json),
      (∀ v ∈ items, ∃ raw, encode v = .ok raw) ∧ (entries.map Prod.fst).Nodup ∧
      (∀ p, p ∈ entries ↔ p.2 ∈ items ∧ encode p.2 = .ok p.1) ∧
      out = (entries.insertionSort fun a b => a.1 ≤ b.1).map Prod.snd := by
  unfold sortedSet at h
  obtain ⟨seen, hseen, h⟩ := bind_eq_ok_iff.mp h
  obtain rfl := pure_eq_ok_iff.mp h
  have hpair : ∀ {it : Json} {p : Bytes × Json},
      (do return (← encode it, it) : Except Exc (Bytes × Json)) = .ok p ↔
        p.2 = it ∧ encode it = .ok p.1 := by
    intro it p
    rw [bind_eq_ok_iff]
    constructor
    · rintro ⟨raw, hraw, hp⟩
      obtain rfl := pure_eq_ok_iff.mp hp
      exact ⟨rfl, hraw⟩
    · rintro ⟨rfl, hraw⟩
      exact ⟨p.1, hraw, rfl⟩
  have hmem : ∀ p, p ∈ seen ↔ p.2 ∈ items ∧ encode p.2 = .ok p.1 := by
    intro p
    constructor
    · intro hp
      obtain ⟨it, hit, hit'⟩ := exists_of_mem_mapM hseen p hp
      obtain ⟨rfl, hraw⟩ := hpair.mp hit'
      exact ⟨hit, hraw⟩
    · rintro ⟨hit, hraw⟩
      obtain ⟨p', hp', heq⟩ := exists_mem_zip_of_mapM hseen p.2 hit
      obtain ⟨hval, hraw'⟩ := hpair.mp heq
      obtain rfl : p = p' := Prod.ext (Except.ok.inj (hraw.symm.trans hraw')) hval.symm
      exact (List.of_mem_zip hp').2
  refine ⟨(Dict.ofPairs seen).entries, ?_, (Dict.ofPairs seen).nodup, ?_, rfl⟩
  · intro v hv
    obtain ⟨p, -, heq⟩ := exists_mem_zip_of_mapM hseen v hv
    exact ⟨p.1, (hpair.mp heq).2⟩
  · intro p
    rw [← hmem]
    constructor
    · exact Dict.mem_pairs_of_mem_ofPairs
    · intro hp
      have hkey : ((Dict.ofPairs seen).get? p.1).isSome = true :=
        Dict.isSome_get?_ofPairs.mpr (List.mem_map_of_mem hp)
      obtain ⟨v, hv⟩ := Option.isSome_iff_exists.mp hkey
      have hentry := Dict.get?_eq_some_iff.mp hv
      obtain ⟨hitems, hraw⟩ := (hmem p).mp hp
      obtain ⟨hitems', hraw'⟩ := (hmem (p.1, v)).mp (Dict.mem_pairs_of_mem_ofPairs hentry)
      obtain rfl : v = p.2 := hapart v hitems' p.2 hitems p.1 hraw' hraw
      exact hentry

/-- A set has the elements it is made from. -/
theorem mem_sortedSet {items out : List Json} (hapart : ToldApart items)
    (h : sortedSet items = .ok out) (v : Json) : v ∈ out ↔ v ∈ items := by
  obtain ⟨entries, hall, -, hmem, rfl⟩ := sortedSet_spec hapart h
  rw [List.mem_map]
  constructor
  · rintro ⟨p, hp, rfl⟩
    exact ((hmem p).mp ((List.mem_insertionSort _).mp hp)).1
  · intro hv
    obtain ⟨raw, hraw⟩ := hall v hv
    exact ⟨(raw, v), (List.mem_insertionSort _).mpr ((hmem _).mpr ⟨hv, hraw⟩), rfl⟩

/-- A set does not depend on how often or in which order its elements are given. -/
theorem sortedSet_congr {items items' out : List Json} (hapart : ToldApart items)
    (hsame : ∀ v, v ∈ items ↔ v ∈ items') (h : sortedSet items = .ok out) :
    sortedSet items' = .ok out := by
  obtain ⟨entries, hall, hnd, hmem, rfl⟩ := sortedSet_spec hapart h
  have hapart' : ToldApart items' := by
    intro v hv w hw
    exact hapart v ((hsame v).mpr hv) w ((hsame w).mpr hw)
  obtain ⟨out', hout⟩ : ∃ out', sortedSet items' = .ok out' := by
    have hpairs : ∀ v ∈ items', ∃ p,
        (do return (← encode v, v) : Except Exc (Bytes × Json)) = .ok p := by
      intro v hv
      obtain ⟨raw, hraw⟩ := hall v ((hsame v).mpr hv)
      exact ⟨(raw, v), by rw [hraw]; rfl⟩
    obtain ⟨seen, hseen⟩ := exists_mapM hpairs
    exact ⟨_, bind_eq_ok_iff.mpr ⟨seen, hseen, rfl⟩⟩
  obtain ⟨entries', -, hnd', hmem', rfl⟩ := sortedSet_spec hapart' hout
  have hperm : entries'.Perm entries := by
    refine (List.perm_ext_iff_of_nodup (.of_map _ hnd') (.of_map _ hnd)).mpr fun p => ?_
    rw [hmem, hmem', hsame]
  have hsorted : entries'.insertionSort (fun a b => a.1 ≤ b.1) =
      entries.insertionSort fun a b => a.1 ≤ b.1 := by
    have htotal : Std.Total fun a b : Bytes × Json => a.1 ≤ b.1 :=
      ⟨fun a b => List.le_total a.1 b.1⟩
    have htrans : IsTrans (Bytes × Json) fun a b => a.1 ≤ b.1 :=
      ⟨fun a b c => List.le_trans⟩
    refine ((List.perm_insertionSort _ _).trans (hperm.trans
      (List.perm_insertionSort _ _).symm)).eq_of_pairwise ?_ (List.pairwise_insertionSort _ _)
      (List.pairwise_insertionSort _ _)
    intro a b ha hb hab hba
    rw [List.mem_insertionSort] at ha hb
    exact List.inj_on_of_nodup_map hnd' ha (hperm.mem_iff.mpr hb) (List.le_antisymm hab hba)
  rw [hout, hsorted]

theorem toldApart_texts (ss : List Str) : ToldApart (ss.map Json.str) := by
  intro v hv w hw raw h h'
  obtain ⟨s, -, rfl⟩ := List.mem_map.mp hv
  obtain ⟨t, -, rfl⟩ := List.mem_map.mp hw
  have hdistinct : ∀ s : Str, (Json.str s).Distinct := fun s => by simp [Json.Distinct]
  exact sorted_eq_of_encode_eq (hdistinct s) (hdistinct t) h h'

end BeSdk.Canon
