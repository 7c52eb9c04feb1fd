/-
BeSdk.CanonTheorems — the canonical codec.

`encode` writes a value with its members in key order and nothing else: its text
is the compact text of `sorted v` (`encode_eq_ok_iff`), where `sorted` orders the
members of every object by the UTF-16 code units of their keys. Everything else
follows from that and from the JSON reader reading compact text back:

* `parse` returns `sorted v` on the bytes of `v` (`parse_encode`), the same value
  up to the order of members, which is no part of a dictionary;
* bytes `parse` accepts with `v` are the bytes of `nfc v`, and `v` is `sorted`
  already (`sorted_nfc_of_parse`), so the bytes are determined by the value.

`Json.same` is Python's `==` on values of one type: members are compared by key.
It does not identify `True` and `1`, which are different records.
-/
import BeSdk.Canon
import BeSdk.Py.JsonTheorems
import BeSdk.Lib.Fallible

namespace BeSdk

/-! ## Equal values -/

mutual

/-- Equality of values, dictionaries by their members. -/
def Json.same : Json → Json → Bool
  | .null, .null => true
  | .bool a, .bool b => a == b
  | .int a, .int b => a == b
  | .float a, .float b => a == b
  | .str a, .str b => a == b
  | .list xs, .list ys => sameElems xs ys
  | .obj ms, .obj ns => ms.length == ns.length && sameMembers ms ns
  | _, _ => false

def sameElems : List Json → List Json → Bool
  | [], [] => true
  | x :: xs, y :: ys => x.same y && sameElems xs ys
  | _, _ => false

/-- Every member has its like among the others. -/
def sameMembers : List (Str × Json) → List (Str × Json) → Bool
  | [], _ => true
  | (k, v) :: ms, ns =>
      (match lookup k ns with
        | some w => v.same w
        | none => false) && sameMembers ms ns

end

namespace Canon

/-! ## The order of keys -/

theorem isSurrogate_iff (c : CodePoint) :
    isSurrogate c = true ↔ 0xD800 ≤ c.val ∧ c.val ≤ 0xDFFF := by
  simp [isSurrogate]

theorem hasSurrogate_eq_false {s : Str} :
    hasSurrogate s = false ↔ ∀ c ∈ s, isSurrogate c = false := by
  simp [hasSurrogate]

/-- Texts without surrogates have different code units. -/
theorem utf16Units_injective : ∀ {s t : Str}, hasSurrogate s = false → hasSurrogate t = false →
    utf16Units s = utf16Units t → s = t
  | [], [], _, _, _ => rfl
  | [], d :: t, _, _, h => by
      simp only [utf16Units, List.flatMap_nil, List.flatMap_cons] at h
      split at h <;> simp at h
  | c :: s, [], _, _, h => by
      simp only [utf16Units, List.flatMap_nil, List.flatMap_cons] at h
      split at h <;> simp at h
  | c :: s, d :: t, hs, ht, h => by
      rw [hasSurrogate_eq_false, List.forall_mem_cons] at hs ht
      have ih := utf16Units_injective (hasSurrogate_eq_false.mpr hs.2)
        (hasSurrogate_eq_false.mpr ht.2)
      have hc := (isSurrogate_iff c).not.mp (by simp [hs.1])
      have hd := (isSurrogate_iff d).not.mp (by simp [ht.1])
      have hclt := c.isLt
      have hdlt := d.isLt
      simp only [utf16Units, List.flatMap_cons] at h ih
      -- one unit outside the surrogates, or a high surrogate first
      split at h <;> split at h <;>
        simp only [List.cons_append, List.nil_append, List.cons.injEq] at h
      · rw [Fin.ext h.1, ih h.2]
      · omega
      · omega
      · rw [show c = d from Fin.ext (by omega), ih h.2.2]

instance : Std.Total keyLe := ⟨fun a b => le_total (utf16Units a) (utf16Units b)⟩
instance : IsTrans Str keyLe := ⟨fun _ _ _ h h' => le_trans h h'⟩

/-- Sorting depends on the set of members alone, where the keys differ. -/
theorem sortMembers_perm {α : Type} {l m : List (Str × α)} (h : l.Perm m)
    (hnd : (l.map Prod.fst).Nodup) (hs : ∀ a ∈ l, hasSurrogate a.1 = false) :
    sortMembers l = sortMembers m := by
  have htotal : Std.Total fun a b : Str × α => keyLe a.1 b.1 := ⟨fun a b => Std.Total.total a.1 b.1⟩
  have htrans : IsTrans (Str × α) fun a b => keyLe a.1 b.1 :=
    ⟨fun a b c => IsTrans.trans a.1 b.1 c.1⟩
  have hperm : (sortMembers l).Perm (sortMembers m) :=
    ((List.perm_insertionSort _ l).trans h).trans (List.perm_insertionSort _ m).symm
  refine hperm.eq_of_pairwise ?_ (List.pairwise_insertionSort _ l) (List.pairwise_insertionSort _ m)
  intro a b ha hb hab hba
  rw [sortMembers, List.mem_insertionSort] at ha hb
  have hb' := h.mem_iff.mpr hb
  have hkey : a.1 = b.1 := utf16Units_injective (hs a ha) (hs b hb') (le_antisymm hab hba)
  exact List.inj_on_of_nodup_map hnd ha hb' hkey

theorem perm_sortMembers {α : Type} (l : List (Str × α)) : (sortMembers l).Perm l :=
  List.perm_insertionSort _ l

theorem mem_sortMembers {α : Type} {l : List (Str × α)} {a : Str × α} :
    a ∈ sortMembers l ↔ a ∈ l := (perm_sortMembers l).mem_iff

theorem nodup_sortMembers {α : Type} {l : List (Str × α)} :
    ((sortMembers l).map Prod.fst).Nodup ↔ (l.map Prod.fst).Nodup :=
  ((perm_sortMembers l).map Prod.fst).nodup_iff

/-- Sorting looks at the keys only. -/
theorem sortMembers_map {α β : Type} (f : Str × α → β) (l : List (Str × α)) :
    sortMembers (l.map fun m => (m.1, f m)) = (sortMembers l).map fun m => (m.1, f m) :=
  (List.map_insertionSort (fun a b : Str × α => keyLe a.1 b.1)
    (fun a b : Str × β => keyLe a.1 b.1) (fun m => (m.1, f m)) l fun _ _ _ _ => Iff.rfl).symm

/-- Sorted members are in the order of their keys. -/
theorem pairwise_sortMembers {α : Type} (l : List (Str × α)) :
    (sortMembers l).Pairwise fun a b => keyLe a.1 b.1 := by
  have htotal : Std.Total fun a b : Str × α => keyLe a.1 b.1 := ⟨fun a b => Std.Total.total a.1 b.1⟩
  have htrans : IsTrans (Str × α) fun a b => keyLe a.1 b.1 :=
    ⟨fun a b c => IsTrans.trans a.1 b.1 c.1⟩
  exact List.pairwise_insertionSort _ l

theorem sortMembers_sortMembers {α : Type} (l : List (Str × α)) :
    sortMembers (sortMembers l) = sortMembers l :=
  (pairwise_sortMembers l).insertionSort_eq

/-! ## Sorted values -/

mutual

/-- The value with the members of every object in the order of their keys. -/
def sorted : Json → Json
  | .list xs => .list (sortedElems xs)
  | .obj ms => .obj (sortMembers (sortedMembers ms))
  | v => v

def sortedElems : List Json → List Json
  | [] => []
  | x :: xs => sorted x :: sortedElems xs

def sortedMembers : List (Str × Json) → List (Str × Json)
  | [] => []
  | (k, v) :: ms => (k, sorted v) :: sortedMembers ms

end

theorem sortedMembers_eq_map : ∀ ms : List (Str × Json),
    sortedMembers ms = ms.map fun m => (m.1, sorted m.2)
  | [] => rfl
  | (k, v) :: ms => by rw [sortedMembers, sortedMembers_eq_map ms, List.map_cons]

@[simp] theorem keys_sortedMembers (ms : List (Str × Json)) :
    (sortedMembers ms).map Prod.fst = ms.map Prod.fst := by
  simp [sortedMembers_eq_map, Function.comp_def]

mutual

/-- A sorted value is plain where the value is. -/
theorem plain_sorted {K P : Str → Prop} {I : Int → Prop} : ∀ v : Json,
    (sorted v).Plain K P I ↔ v.Plain K P I
  | .null => Iff.rfl
  | .bool _ => Iff.rfl
  | .int _ => Iff.rfl
  | .float _ => Iff.rfl
  | .str _ => Iff.rfl
  | .list xs => plainElems_sorted xs
  | .obj ms => by
      rw [sorted, Json.Plain, Json.Plain, ← plainMembers_sorted ms, plainMembers_iff,
        plainMembers_iff]
      simp only [mem_sortMembers]

theorem plainElems_sorted {K P : Str → Prop} {I : Int → Prop} : ∀ xs : List Json,
    PlainElems K P I (sortedElems xs) ↔ PlainElems K P I xs
  | [] => Iff.rfl
  | x :: xs => and_congr (plain_sorted x) (plainElems_sorted xs)

theorem plainMembers_sorted {K P : Str → Prop} {I : Int → Prop} : ∀ ms : List (Str × Json),
    PlainMembers K P I (sortedMembers ms) ↔ PlainMembers K P I ms
  | [] => Iff.rfl
  | (_, v) :: ms => and_congr Iff.rfl (and_congr (plain_sorted v) (plainMembers_sorted ms))

end

mutual

/-- A sorted value repeats a key where the value does. -/
theorem distinct_sorted : ∀ v : Json, (sorted v).Distinct ↔ v.Distinct
  | .null => Iff.rfl
  | .bool _ => Iff.rfl
  | .int _ => Iff.rfl
  | .float _ => Iff.rfl
  | .str _ => Iff.rfl
  | .list xs => distinctElems_sorted xs
  | .obj ms => by
      rw [sorted, Json.Distinct, Json.Distinct, nodup_sortMembers, keys_sortedMembers,
        ← distinctMembers_sorted ms, distinctMembers_iff, distinctMembers_iff]
      simp only [mem_sortMembers]

theorem distinctElems_sorted : ∀ xs : List Json,
    DistinctElems (sortedElems xs) ↔ DistinctElems xs
  | [] => Iff.rfl
  | x :: xs => and_congr (distinct_sorted x) (distinctElems_sorted xs)

theorem distinctMembers_sorted : ∀ ms : List (Str × Json),
    DistinctMembers (sortedMembers ms) ↔ DistinctMembers ms
  | [] => Iff.rfl
  | (_, v) :: ms => and_congr (distinct_sorted v) (distinctMembers_sorted ms)

end

mutual

/-- Sorting once is enough. -/
theorem sorted_sorted : ∀ v : Json, sorted (sorted v) = sorted v
  | .null => rfl
  | .bool _ => rfl
  | .int _ => rfl
  | .float _ => rfl
  | .str _ => rfl
  | .list xs => by rw [sorted, sorted, sortedElems_sorted xs]
  | .obj ms => by
      have hcomm : sortedMembers (sortMembers (sortedMembers ms))
          = sortMembers (sortedMembers (sortedMembers ms)) := by
        rw [sortedMembers_eq_map (sortMembers _), sortedMembers_eq_map (sortedMembers ms)]
        exact (sortMembers_map (fun m => sorted m.2) _).symm
      rw [sorted, sorted, hcomm, sortedMembers_sorted ms, sortMembers_sortMembers]

theorem sortedElems_sorted : ∀ xs : List Json, sortedElems (sortedElems xs) = sortedElems xs
  | [] => rfl
  | x :: xs => by rw [sortedElems, sortedElems, sorted_sorted x, sortedElems_sorted xs]

theorem sortedMembers_sorted : ∀ ms : List (Str × Json),
    sortedMembers (sortedMembers ms) = sortedMembers ms
  | [] => rfl
  | (k, v) :: ms => by rw [sortedMembers, sortedMembers, sorted_sorted v, sortedMembers_sorted ms]

end

mutual

/-- The keys of every object in strictly increasing order of their code units. -/
def KeysOrdered : Json → Prop
  | .list xs => KeysOrderedElems xs
  | .obj ms => ms.Pairwise (fun a b => utf16Units a.1 < utf16Units b.1) ∧ KeysOrderedMembers ms
  | _ => True

def KeysOrderedElems : List Json → Prop
  | [] => True
  | x :: xs => KeysOrdered x ∧ KeysOrderedElems xs

def KeysOrderedMembers : List (Str × Json) → Prop
  | [] => True
  | (_, v) :: ms => KeysOrdered v ∧ KeysOrderedMembers ms

end

theorem keysOrderedMembers_iff : ∀ {ms : List (Str × Json)},
    KeysOrderedMembers ms ↔ ∀ m ∈ ms, KeysOrdered m.2
  | [] => by simp [KeysOrderedMembers]
  | (k, v) :: ms => by rw [KeysOrderedMembers, keysOrderedMembers_iff]; simp

/-- A value whose keys, but not necessarily its strings, are free of surrogates. -/
abbrev CleanKeys (P : Str → Prop) (I : Int → Prop) (v : Json) : Prop :=
  v.Plain (fun s => hasSurrogate s = false) P I

mutual

/-- The keys of a sorted value are in order at every level. -/
theorem keysOrdered_sorted {P : Str → Prop} {I : Int → Prop} : ∀ v : Json, CleanKeys P I v →
    v.Distinct → KeysOrdered (sorted v)
  | .null, _, _ => trivial
  | .bool _, _, _ => trivial
  | .int _, _, _ => trivial
  | .float _, _, _ => trivial
  | .str _, _, _ => trivial
  | .list xs, hp, hd => keysOrderedElems_sorted xs hp hd
  | .obj ms, hp, hd => by
      have hmem := keysOrderedMembers_sorted ms hp hd.2
      rw [keysOrderedMembers_iff] at hmem
      refine ⟨?_, keysOrderedMembers_iff.mpr fun m hm => hmem m (mem_sortMembers.mp hm)⟩
      have hnd : ((sortMembers (sortedMembers ms)).map Prod.fst).Nodup := by
        rw [nodup_sortMembers, keys_sortedMembers]; exact hd.1
      have hclean := plainMembers_iff.mp ((plainMembers_sorted ms).mpr hp)
      have hboth := (pairwise_sortMembers (sortedMembers ms)).and (List.pairwise_map.mp hnd)
      refine hboth.imp_of_mem fun {a b} ha hb hab => lt_of_le_of_ne hab.1 fun heq => hab.2 ?_
      exact utf16Units_injective (hclean a (mem_sortMembers.mp ha)).1
        (hclean b (mem_sortMembers.mp hb)).1 heq

theorem keysOrderedElems_sorted {P : Str → Prop} {I : Int → Prop} : ∀ xs : List Json,
    PlainElems (fun s => hasSurrogate s = false) P I xs → DistinctElems xs →
    KeysOrderedElems (sortedElems xs)
  | [], _, _ => trivial
  | x :: xs, hp, hd => ⟨keysOrdered_sorted x hp.1 hd.1, keysOrderedElems_sorted xs hp.2 hd.2⟩

theorem keysOrderedMembers_sorted {P : Str → Prop} {I : Int → Prop} : ∀ ms : List (Str × Json),
    PlainMembers (fun s => hasSurrogate s = false) P I ms → DistinctMembers ms →
    KeysOrderedMembers (sortedMembers ms)
  | [], _, _ => trivial
  | (_, v) :: ms, hp, hd =>
      ⟨keysOrdered_sorted v hp.2.1 hd.1, keysOrderedMembers_sorted ms hp.2.2 hd.2⟩

end

/-! ## Equal values sort alike -/

/-- Dictionaries are equal when their members are, whatever their order. -/
theorem sortMembers_eq_iff {ms ns : List (Str × Json)} (hm : (ms.map Prod.fst).Nodup)
    (hn : (ns.map Prod.fst).Nodup) (hclean : ∀ m ∈ ms, hasSurrogate m.1 = false) :
    sortMembers (sortedMembers ms) = sortMembers (sortedMembers ns) ↔
      ms.length = ns.length ∧ ∀ m ∈ ms, ∃ w, lookup m.1 ns = some w ∧ sorted m.2 = sorted w := by
  have hkm : ((sortedMembers ms).map Prod.fst).Nodup := by rw [keys_sortedMembers]; exact hm
  have hlen : ∀ l, (sortedMembers l).length = l.length := fun l => by simp [sortedMembers_eq_map]
  constructor
  · intro h
    have hperm : (sortedMembers ms).Perm (sortedMembers ns) :=
      ((perm_sortMembers _).symm.trans (h ▸ perm_sortMembers _))
    refine ⟨by simpa [hlen] using hperm.length_eq, fun m hmem => ?_⟩
    have hin : (m.1, sorted m.2) ∈ sortedMembers ns := by
      rw [← hperm.mem_iff, sortedMembers_eq_map]
      exact List.mem_map_of_mem hmem
    rw [sortedMembers_eq_map] at hin
    obtain ⟨⟨k, w⟩, hw, heq⟩ := List.mem_map.mp hin
    obtain ⟨rfl, hval⟩ := Prod.mk.inj heq
    exact ⟨w, lookup_of_mem hn hw, hval.symm⟩
  · rintro ⟨hsize, hlook⟩
    have hsub : sortedMembers ms ⊆ sortedMembers ns := by
      intro x hx
      rw [sortedMembers_eq_map] at hx ⊢
      obtain ⟨m, hmem, rfl⟩ := List.mem_map.mp hx
      obtain ⟨w, hw, hval⟩ := hlook m hmem
      exact List.mem_map.mpr ⟨(m.1, w), mem_of_lookup hw, by rw [hval]⟩
    have hperm := ((List.Nodup.of_map _ hkm).subperm hsub).perm_of_length_le (by simp [hlen, hsize])
    refine sortMembers_perm hperm hkm fun a ha => ?_
    have hkey : a.1 ∈ ms.map Prod.fst := by
      rw [← keys_sortedMembers]; exact List.mem_map_of_mem ha
    obtain ⟨m, hmem, heq⟩ := List.mem_map.mp hkey
    rw [← heq]
    exact hclean m hmem

mutual

/-- Equal values are the ones that sort alike. -/
theorem same_iff {P P' : Str → Prop} {I I' : Int → Prop} : ∀ v w : Json, CleanKeys P I v →
    CleanKeys P' I' w → v.Distinct → w.Distinct → (v.same w = true ↔ sorted v = sorted w)
  | .null, _, hv, _, _, _ => hv.elim
  | .float _, _, hv, _, _, _ => hv.elim
  | .bool a, w, _, _, _, _ => by cases w <;> simp [Json.same, sorted]
  | .int a, w, _, _, _, _ => by cases w <;> simp [Json.same, sorted]
  | .str a, w, _, _, _, _ => by cases w <;> simp [Json.same, sorted]
  | .list xs, w, hv, hw, hdv, hdw => by
      cases w with
      | list ys =>
          rw [Json.same, sorted, sorted, Json.list.injEq, sameElems_iff xs ys hv hw hdv hdw]
      | _ => simp [Json.same, sorted]
  | .obj ms, w, hv, hw, hdv, hdw => by
      cases w with
      | obj ns =>
          rw [Json.same, sorted, sorted, Json.obj.injEq, Bool.and_eq_true, beq_iff_eq,
            sameMembers_iff ms ns hv hw hdv.2 hdw.2,
            sortMembers_eq_iff hdv.1 hdw.1 fun m hm => (plainMembers_iff.mp hv m hm).1]
      | _ => simp [Json.same, sorted]

/-- Lists are the same where their sorted elements are. -/
theorem sameElems_iff {P P' : Str → Prop} {I I' : Int → Prop} : ∀ xs ys : List Json,
    PlainElems (fun s => hasSurrogate s = false) P I xs →
    PlainElems (fun s => hasSurrogate s = false) P' I' ys → DistinctElems xs → DistinctElems ys →
    (sameElems xs ys = true ↔ sortedElems xs = sortedElems ys)
  | [], [], _, _, _, _ => by simp [sameElems, sortedElems]
  | [], _ :: _, _, _, _, _ => by simp [sameElems, sortedElems]
  | _ :: _, [], _, _, _, _ => by simp [sameElems, sortedElems]
  | x :: xs, y :: ys, hx, hy, hdx, hdy => by
      rw [sameElems, sortedElems, sortedElems, Bool.and_eq_true, List.cons.injEq,
        same_iff x y hx.1 hy.1 hdx.1 hdy.1, sameElems_iff xs ys hx.2 hy.2 hdx.2 hdy.2]

/-- Members are the same where each has its counterpart under its key. -/
theorem sameMembers_iff {P P' : Str → Prop} {I I' : Int → Prop} : ∀ ms ns : List (Str × Json),
    PlainMembers (fun s => hasSurrogate s = false) P I ms →
    PlainMembers (fun s => hasSurrogate s = false) P' I' ns → DistinctMembers ms →
    DistinctMembers ns →
    (sameMembers ms ns = true ↔
      ∀ m ∈ ms, ∃ w, lookup m.1 ns = some w ∧ sorted m.2 = sorted w)
  | [], _, _, _, _, _ => by simp [sameMembers]
  | (k, v) :: ms, ns, hv, hn, hdv, hdn => by
      rw [sameMembers, Bool.and_eq_true, List.forall_mem_cons,
        sameMembers_iff ms ns hv.2.2 hn hdv.2 hdn]
      refine and_congr ?_ Iff.rfl
      cases hl : lookup k ns with
      | none => simp
      | some w =>
          have hmem := mem_of_lookup hl
          have hw := (plainMembers_iff.mp hn _ hmem).2
          simp [same_iff v w hv.2.1 hw hdv.1 (distinctMembers_iff.mp hdn _ hmem)]

end

/-! ## Encoding -/

/-- The integers the encoding takes. -/
def Bounded (n : Int) : Prop := n.natAbs < maxInt

/-- Each member is encoded on its own. -/
theorem encodeMembers_eq_map : ∀ ms : List (Str × Json), encodeMembers ms = ms.map fun m =>
    (m.1, (encodeText m.2).map fun t => quoted escape m.1 ++ chr ':' :: t)
  | [] => rfl
  | (k, v) :: ms => by rw [encodeMembers, encodeMembers_eq_map ms, List.map_cons]

/-- The members' texts in sorted order, where every value has one. -/
theorem encodeText_obj {ms : List (Str × Json)} (hkeys : ∀ m ∈ ms, hasSurrogate m.1 = false)
    (hvals : ∀ m ∈ ms, encodeText m.2 = .ok (compact escape (sorted m.2))) :
    encodeText (.obj ms) = .ok (compact escape (sorted (.obj ms))) := by
  have hany : ((encodeMembers ms).any fun m => hasSurrogate m.1) = false := by
    rw [encodeMembers_eq_map, List.any_eq_false]
    intro x hx
    obtain ⟨m, hm, rfl⟩ := List.mem_map.mp hx
    simp [hkeys m hm]
  have hparts : (sortMembers (encodeMembers ms)).mapM (fun m => m.2)
      = .ok (compactMembers escape (sortMembers (sortedMembers ms))) := by
    rw [encodeMembers_eq_map, sortMembers_map (fun m => (encodeText m.2).map _), List.mapM_map,
      mapM_ok (g := fun m => quoted escape m.1 ++ chr ':' :: compact escape (sorted m.2)),
      compactMembers_eq_map, sortedMembers_eq_map, sortMembers_map (fun m => sorted m.2),
      List.map_map]
    · rfl
    · intro m hm
      simp only [Function.comp_apply, hvals m (mem_sortMembers.mp hm)]
      rfl
  rw [encodeText]
  simp only [hany, Bool.false_eq_true, if_false]
  rw [hparts]
  rfl

mutual

/-- A value without null and floats, with small integers and clean keys, has a
text: the compact text of the sorted value. -/
theorem encodeText_of_plain {P : Str → Prop} : ∀ v : Json, CleanKeys P Bounded v →
    encodeText v = .ok (compact escape (sorted v))
  | .null, h => h.elim
  | .float _, h => h.elim
  | .bool _, _ => rfl
  | .int n, h => by rw [encodeText, if_neg (not_le.mpr h)]; rfl
  | .str _, _ => rfl
  | .list xs, h => by
      rw [encodeText, encodeElems_of_plain xs h]
      rfl
  | .obj ms, h =>
      encodeText_obj (fun m hm => (plainMembers_iff.mp h m hm).1) (encodeMembers_of_plain ms h)

/-- Plain elements are encoded as their sorted compact texts. -/
theorem encodeElems_of_plain {P : Str → Prop} : ∀ xs : List Json,
    PlainElems (fun s => hasSurrogate s = false) P Bounded xs →
    encodeElems xs = .ok (compactElems escape (sortedElems xs))
  | [], _ => rfl
  | x :: xs, h => by
      rw [encodeElems, encodeText_of_plain x h.1, encodeElems_of_plain xs h.2]
      rfl

/-- Plain members are encoded as their sorted compact texts. -/
theorem encodeMembers_of_plain {P : Str → Prop} : ∀ ms : List (Str × Json),
    PlainMembers (fun s => hasSurrogate s = false) P Bounded ms →
    ∀ m ∈ ms, encodeText m.2 = .ok (compact escape (sorted m.2))
  | [], _ => by simp
  | (_, v) :: ms, h => by
      rw [List.forall_mem_cons]
      exact ⟨encodeText_of_plain v h.2.1, encodeMembers_of_plain ms h.2.2⟩

end

mutual

/-- Only such values have a text. -/
theorem plain_of_encodeText : ∀ v : Json, (∃ s, encodeText v = .ok s) →
    CleanKeys (fun _ => True) Bounded v
  | .null, ⟨_, h⟩ => by simp [encodeText] at h
  | .float _, ⟨_, h⟩ => by simp [encodeText] at h
  | .bool _, _ => trivial
  | .int n, ⟨s, h⟩ => by
      rw [encodeText] at h
      split at h
      · cases h
      · next hn => exact not_le.mp hn
  | .str _, _ => trivial
  | .list xs, ⟨s, h⟩ => by
      rw [encodeText, bind_eq_ok_iff] at h
      obtain ⟨parts, hparts, -⟩ := h
      exact plain_of_encodeElems xs ⟨parts, hparts⟩
  | .obj ms, ⟨s, h⟩ => by
      rw [encodeText] at h
      split at h
      · cases h
      next hany =>
        rw [bind_eq_ok_iff] at h
        obtain ⟨parts, hparts, -⟩ := h
        refine plain_of_encodeMembers ms fun m hm => ?_
        have hin : (m.1, (encodeText m.2).map fun t => quoted escape m.1 ++ chr ':' :: t)
            ∈ encodeMembers ms := by
          rw [encodeMembers_eq_map]; exact List.mem_map_of_mem hm
        obtain ⟨t, ht⟩ := exists_ok_of_mapM hparts _ (mem_sortMembers.mpr hin)
        obtain ⟨u, hu, -⟩ := map_eq_ok_iff.mp ht
        exact ⟨by simpa using fun hs => hany (List.any_eq_true.mpr ⟨_, hin, hs⟩), u, hu⟩

/-- Elements that are encoded are plain. -/
theorem plain_of_encodeElems : ∀ xs : List Json, (∃ ps, encodeElems xs = .ok ps) →
    PlainElems (fun s => hasSurrogate s = false) (fun _ => True) Bounded xs
  | [], _ => trivial
  | x :: xs, ⟨ps, h⟩ => by
      rw [encodeElems, bind_eq_ok_iff] at h
      obtain ⟨p, hp, h⟩ := h
      obtain ⟨qs, hqs, -⟩ := bind_eq_ok_iff.mp h
      exact ⟨plain_of_encodeText x ⟨p, hp⟩, plain_of_encodeElems xs ⟨qs, hqs⟩⟩

/-- Members that are encoded are plain. -/
theorem plain_of_encodeMembers : ∀ ms : List (Str × Json),
    (∀ m ∈ ms, hasSurrogate m.1 = false ∧ ∃ s, encodeText m.2 = .ok s) →
    PlainMembers (fun s => hasSurrogate s = false) (fun _ => True) Bounded ms
  | [], _ => trivial
  | (k, v) :: ms, h => by
      rw [List.forall_mem_cons] at h
      exact ⟨h.1.1, plain_of_encodeText v h.1.2, plain_of_encodeMembers ms h.2⟩

end

/-! ## The escapes -/

/-- Every escape is read back, a lone surrogate's too. -/
theorem reads_escape (c : CodePoint) : Reads escape c := by
  intro tail
  rw [escape]
  cases he : letterEscape c with
  | some e => exact scanString_letterEscape he tail
  | none =>
      have hq : c ≠ chr '"' := by rintro rfl; revert he; decide
      have hb : c ≠ chr '\\' := by rintro rfl; revert he; decide
      simp only
      split
      · next h =>
          have hlow : isHighSurrogate c.val = false := by simp [isHighSurrogate]; omega
          exact scanString_unitEscape (by omega) hlow tail
      · next h => exact scanString_cons hq hb (by omega) tail

theorem readsText_escape (s : Str) :
    ReadsText escape s := readsText_of_reads fun c _ => reads_escape c

/-- What holds of printable characters holds of an escape. -/
theorem forall_mem_escape {Q : CodePoint → Prop} (hascii : ∀ c : CodePoint, 0x20 ≤ c.val →
    c.val ≤ 0x7E → Q c) {c : CodePoint} (hc : 0x20 ≤ c.val → Q c) : ∀ x ∈ escape c, Q x := by
  have hprint : ∀ {s : Str}, (s.all fun x => 0x20 ≤ x.val && x.val ≤ 0x7E) = true →
      ∀ x ∈ s, Q x := by
    intro s hall x hx
    have hrange := List.all_eq_true.mp hall x hx
    simp only [Bool.and_eq_true, decide_eq_true_eq] at hrange
    exact hascii x hrange.1 hrange.2
  have hhex : ∀ d, Q (hexDigit d) := by
    intro d
    rw [hexDigit]
    split
    · exact hascii _ (by simp only; omega) (by simp only; omega)
    · exact hascii _ (by simp only; omega) (by simp only; omega)
  rw [escape]
  cases he : letterEscape c with
  | some e =>
      refine hprint ?_
      unfold letterEscape at he
      repeat' split at he
      all_goals first
        | (obtain rfl := Option.some.inj he; rfl)
        | simp at he
  | none =>
      simp only
      split
      · have hb := hascii (chr '\\') (by decide) (by decide)
        have hu := hascii (chr 'u') (by decide) (by decide)
        simp [unitEscape, hb, hu, hhex]
      · next h => simpa using hc (by omega)

/-- A surrogate is written as it is. -/
theorem isSurrogate_escape {s : Str} (h : ∀ c ∈ s.flatMap escape, isSurrogate c = false) :
    hasSurrogate s = false := by
  rw [hasSurrogate_eq_false]
  intro c hc
  by_contra hs
  have hrange := (isSurrogate_iff c).mp (by simpa using hs)
  have hletter : letterEscape c = none := by
    unfold letterEscape
    repeat' split
    all_goals first
      | rfl
      | (next hx => subst hx; exact absurd hrange (by decide))
  have hself : escape c = [c] := by
    rw [escape, hletter]
    simp only
    rw [if_neg (by omega)]
  exact hs (h c (List.mem_flatMap.mpr ⟨c, hc, by simp [hself]⟩))

/-! ## The bytes -/

/-- A text the encoder takes. -/
def Clean (s : Str) : Prop := hasSurrogate s = false

theorem utf8_eq_ok_iff {s : Str} {b : Bytes} : utf8 s = .ok b ↔ utf8Encode s = some b := by
  rw [utf8]
  cases utf8Encode s <;> simp

/-- **What `encode` writes**: exactly the values without null, floats, surrogates
and large integers have bytes, and they are those of the sorted value's text. -/
theorem encode_eq_ok_iff {v : Json} {raw : Bytes} : encode v = .ok raw ↔
    v.Plain Clean Clean Bounded ∧ utf8Encode (compact escape (sorted v)) = some raw := by
  rw [encode, bind_eq_ok_iff]
  constructor
  · rintro ⟨s, hs, hb⟩
    rw [utf8_eq_ok_iff] at hb
    have hclean := plain_of_encodeText v ⟨s, hs⟩
    obtain rfl : compact escape (sorted v) = s := by
      rw [encodeText_of_plain v hclean] at hs
      exact Except.ok.inj hs
    have hsur := (forall_mem_compact (Q := fun c => isSurrogate c = false)
      (fun c _ h => by simp [isSurrogate]; omega) (sorted v)
      ((plain_sorted v).mpr hclean)).mp (isSurrogate_of_utf8Encode hb)
    refine ⟨?_, hb⟩
    exact Json.Plain.imp (fun s _ h => h) (fun s h _ => isSurrogate_escape h) (fun n _ h => h) v
      ((plain_sorted v).mp hsur) hclean
  · rintro ⟨hplain, hb⟩
    exact ⟨_, encodeText_of_plain v hplain, utf8_eq_ok_iff.mpr hb⟩

/-- Sorting leaves the bytes alone. -/
theorem encode_sorted {v : Json} {raw : Bytes} (h : encode v = .ok raw) :
    encode (sorted v) = .ok raw := by
  rw [encode_eq_ok_iff] at h ⊢
  rwa [plain_sorted, sorted_sorted]

/-- Every such value has bytes. -/
theorem exists_encode {v : Json} (h : v.Plain Clean Clean Bounded) : ∃ raw, encode v = .ok raw := by
  have hchars : ∀ c ∈ compact escape (sorted v), isSurrogate c = false := by
    have hascii : ∀ c : CodePoint, 0x20 ≤ c.val → c.val ≤ 0x7E → isSurrogate c = false :=
      fun c _ hc => by simp [isSurrogate]; omega
    have hplain := (plain_sorted v).mpr h
    refine (forall_mem_compact hascii _ hplain).mpr ?_
    have hstr : ∀ s, Clean s → ∀ c ∈ s.flatMap escape, isSurrogate c = false := by
      intro s hs c hc
      obtain ⟨x, hx, hcx⟩ := List.mem_flatMap.mp hc
      exact forall_mem_escape hascii (fun _ => hasSurrogate_eq_false.mp hs x hx) c hcx
    exact hplain.mono hstr hstr fun _ _ => trivial
  obtain ⟨raw, hraw⟩ := utf8Encode_isSome hchars
  exact ⟨raw, encode_eq_ok_iff.mpr ⟨h, hraw⟩⟩

mutual

/-- A plain value that repeats no key is admitted. -/
theorem admitted_of_plain {K P : Str → Prop} {I : Int → Prop} : ∀ v : Json, v.Plain K P I →
    v.Distinct → admitted v = true
  | .null, h, _ => h.elim
  | .float _, h, _ => h.elim
  | .bool _, _, _ => rfl
  | .int _, _, _ => rfl
  | .str _, _, _ => rfl
  | .list xs, h, hd => admittedElems_of_plain xs h hd
  | .obj ms, h, hd => by
      rw [admitted, Bool.and_eq_true, decide_eq_true_iff]
      exact ⟨hd.1, admittedMembers_of_plain ms h hd.2⟩

theorem admittedElems_of_plain {K P : Str → Prop} {I : Int → Prop} : ∀ xs : List Json,
    PlainElems K P I xs → DistinctElems xs → admittedElems xs = true
  | [], _, _ => rfl
  | x :: xs, h, hd => by
      rw [admittedElems, admitted_of_plain x h.1 hd.1, admittedElems_of_plain xs h.2 hd.2]
      rfl

theorem admittedMembers_of_plain {K P : Str → Prop} {I : Int → Prop} : ∀ ms : List (Str × Json),
    PlainMembers K P I ms → DistinctMembers ms → admittedMembers ms = true
  | [], _, _ => rfl
  | (_, v) :: ms, h, hd => by
      rw [admittedMembers, admitted_of_plain v h.2.1 hd.1, admittedMembers_of_plain ms h.2.2 hd.2]
      rfl

end

mutual

/-- An admitted value repeats no key. -/
theorem distinct_of_admitted : ∀ v : Json, admitted v = true → v.Distinct
  | .null, _ => trivial
  | .float _, _ => trivial
  | .bool _, _ => trivial
  | .int _, _ => trivial
  | .str _, _ => trivial
  | .list xs, h => distinctElems_of_admitted xs h
  | .obj ms, h => by
      rw [admitted, Bool.and_eq_true, decide_eq_true_iff] at h
      exact ⟨h.1, distinctMembers_of_admitted ms h.2⟩

theorem distinctElems_of_admitted : ∀ xs : List Json, admittedElems xs = true → DistinctElems xs
  | [], _ => trivial
  | x :: xs, h => by
      rw [admittedElems, Bool.and_eq_true] at h
      exact ⟨distinct_of_admitted x h.1, distinctElems_of_admitted xs h.2⟩

theorem distinctMembers_of_admitted : ∀ ms : List (Str × Json), admittedMembers ms = true →
    DistinctMembers ms
  | [], _ => trivial
  | (_, v) :: ms, h => by
      rw [admittedMembers, Bool.and_eq_true] at h
      exact ⟨distinct_of_admitted v h.1, distinctMembers_of_admitted ms h.2⟩

end

/-- The bytes of a value's text are read as that text. -/
theorem decodeJsonBytes_compact {K P : Str → Prop} {I : Int → Prop} {v : Json} {raw : Bytes}
    (hv : v.Plain K P I) (h : utf8Encode (compact escape v) = some raw) :
    decodeJsonBytes raw = some (compact escape v) := by
  have hascii : ∀ c : CodePoint, 0x20 ≤ c.val → c.val ≤ 0x7E → c.val ≠ 0 := fun c h _ => by omega
  have hnonzero : ∀ c ∈ compact escape v, c.val ≠ 0 := by
    refine (forall_mem_compact hascii _ hv).mpr ?_
    have hstr : ∀ s : Str, ∀ c ∈ s.flatMap escape, c.val ≠ 0 := by
      intro s c hc
      obtain ⟨x, -, hcx⟩ := List.mem_flatMap.mp hc
      exact forall_mem_escape hascii (fun h => by omega) c hcx
    exact hv.mono (fun s _ => hstr s) (fun s _ => hstr s) fun _ _ => trivial
  have hhead : ∀ x ∈ raw.head?, x.toNat < 0x80 := by
    obtain ⟨c, rest, hc, -, -, -, hlt⟩ := compact_head escape hv
    have h' := h
    rw [hc, utf8Encode] at h'
    split at h'
    · simp at h'
    obtain ⟨bs, -, rfl⟩ := Option.map_eq_some_iff.mp h'
    rw [utf8Bytes, if_pos hlt]
    intro x hx
    obtain rfl : UInt8.ofNat c.val = x := by simpa using hx
    rw [UInt8.toNat_ofNat']
    omega
  rw [decodeJsonBytes_eq (utf8Encode_ne_zero h hnonzero) hhead, utf8Decode_encode h]

/-- What `json.loads` reads of a value's text, whatever its strings. -/
theorem loads_compact [Interp] {K P : Str → Prop} {v : Json} {raw : Bytes}
    (hv : v.Plain K P fun n => n.natAbs < 10 ^ maxStrDigits) (hroom : v.depth ≤ Interp.nesting)
    (h : utf8Encode (compact escape v) = some raw) : loads raw = .ok v.dedupe := by
  have hreads : v.ReadsBack escape :=
    hv.mono (fun _ _ => readsText_escape _) (fun _ _ => readsText_escape _) fun _ h => h
  rw [loads, decodeJsonBytes_compact hv h]
  exact loadsText_eq_ok_iff.mpr ⟨v, scanJson_compact hreads, hroom, rfl⟩

/-- The bytes of a value's text are decoded to the value. -/
theorem decode_of_utf8Encode {v : Json} {raw : Bytes} (hv : v.Plain Clean Clean Bounded)
    (hd : v.Distinct) (h : utf8Encode (compact escape v) = some raw) : decode raw = some v := by
  have hbound : ∀ n, Bounded n → n.natAbs < 10 ^ maxStrDigits := by
    intro n hn
    have h1 : maxInt ≤ 10 ^ 16 := by decide
    have h2 : 10 ^ 16 ≤ 10 ^ maxStrDigits := Nat.pow_le_pow_right (by decide) (by decide)
    exact lt_of_lt_of_le hn (h1.trans h2)
  have hreads : v.ReadsBack escape :=
    hv.mono (fun _ _ => readsText_escape _) (fun _ _ => readsText_escape _) hbound
  rw [decode, decodeJsonBytes_compact hv h, Option.bind_some, scanJson_compact hreads]
  simp only
  rw [if_pos (admitted_of_plain v hv hd)]

/-! ## Normalization -/

section
variable [Interp]

mutual

/-- A value whose strings are normalized is its own normal form. -/
theorem nfc_of_strings : ∀ v : Json, v.Strings (fun s => text s = s) → v.Distinct → nfc v = v
  | .null, _, _ => rfl
  | .bool _, _, _ => rfl
  | .int _, _, _ => rfl
  | .float _, _, _ => rfl
  | .str s, h, _ => congrArg Json.str h
  | .list xs, h, hd => by rw [nfc, nfcElems_of_strings xs h hd]
  | .obj ms, h, hd => by rw [nfc, nfcMembers_of_strings ms h hd.2, Dict.entries_ofPairs hd.1]

theorem nfcElems_of_strings : ∀ xs : List Json, StringsElems (fun s => text s = s) xs →
    DistinctElems xs → nfcElems xs = xs
  | [], _, _ => rfl
  | x :: xs, h, hd => by rw [nfcElems, nfc_of_strings x h.1 hd.1, nfcElems_of_strings xs h.2 hd.2]

/-- Members of normalised texts are normalised already. -/
theorem nfcMembers_of_strings : ∀ ms : List (Str × Json), StringsMembers (fun s => text s = s) ms →
    DistinctMembers ms → nfcMembers ms = ms
  | [], _, _ => rfl
  | (k, v) :: ms, h, hd => by
      rw [nfcMembers, h.1, nfc_of_strings v h.2.1 hd.1, nfcMembers_of_strings ms h.2.2 hd.2]

end

mutual

/-- Normalising repeats no key. -/
theorem distinct_nfc : ∀ v : Json, v.Distinct → (nfc v).Distinct
  | .null, _ => trivial
  | .bool _, _ => trivial
  | .int _, _ => trivial
  | .float _, _ => trivial
  | .str _, _ => trivial
  | .list xs, h => distinctElems_nfc xs h
  | .obj ms, h => by
      refine ⟨(Dict.ofPairs (nfcMembers ms)).nodup, distinctMembers_iff.mpr fun m hm => ?_⟩
      exact distinctMembers_iff.mp (distinctMembers_nfc ms h.2) m (Dict.mem_pairs_of_mem_ofPairs hm)

theorem distinctElems_nfc : ∀ xs : List Json, DistinctElems xs → DistinctElems (nfcElems xs)
  | [], _ => trivial
  | x :: xs, h => ⟨distinct_nfc x h.1, distinctElems_nfc xs h.2⟩

theorem distinctMembers_nfc : ∀ ms : List (Str × Json), DistinctMembers ms →
    DistinctMembers (nfcMembers ms)
  | [], _ => trivial
  | (_, v) :: ms, h => ⟨distinct_nfc v h.1, distinctMembers_nfc ms h.2⟩

end

/-! ## The codec -/

/-- A value of the canonical encoding: booleans, integers below `2^53` in absolute
value, strings and keys in NFC without surrogates, lists and dictionaries. -/
structure Record (v : Json) : Prop where
  plain : v.Plain (fun s => text s = s ∧ Clean s) (fun s => text s = s ∧ Clean s) Bounded
  distinct : v.Distinct

theorem Record.clean {v : Json} (h : Record v) : v.Plain Clean Clean Bounded :=
  h.plain.mono (fun _ h => h.2) (fun _ h => h.2) fun _ h => h

theorem Record.nfc_eq {v : Json} (h : Record v) : nfc v = v :=
  nfc_of_strings v (h.plain.mono (fun _ h => h.1) (fun _ h => h.1) fun _ h => h).strings h.distinct

theorem Record.sorted {v : Json} (h : Record v) : Record (sorted v) :=
  ⟨(plain_sorted v).mpr h.plain, (distinct_sorted v).mpr h.distinct⟩

/-- **The bytes of a value parse to the sorted value.** -/
theorem parse_encode {v : Json} {raw : Bytes} (hv : Record v) (h : encode v = .ok raw) :
    parse raw = .ok (sorted v) := by
  have hdec : decode raw = some (sorted v) :=
    decode_of_utf8Encode hv.sorted.clean hv.sorted.distinct (encode_eq_ok_iff.mp h).2
  rw [parse, hdec]
  simp only
  rw [hv.sorted.nfc_eq, encode_sorted h]
  simp [bind, Except.bind, pure, Except.pure]

/-- What acceptance says: the bytes decode to the value and are the bytes of its
normal form. -/
theorem of_parse {v : Json} {raw : Bytes} (h : parse raw = .ok v) :
    decode raw = some v ∧ encode (nfc v) = .ok raw := by
  rw [parse] at h
  split at h
  · cases h
  next w hw =>
    rw [bind_eq_ok_iff] at h
    obtain ⟨b, hb, h⟩ := h
    split at h
    · next hraw =>
        obtain rfl := pure_eq_ok_iff.mp h
        exact ⟨hw, hraw ▸ hb⟩
    · cases h

/-- What is parsed repeats no key. -/
theorem distinct_of_parse {v : Json} {raw : Bytes} (h : parse raw = .ok v) : v.Distinct := by
  have hdec := (of_parse h).1
  rw [decode] at hdec
  split at hdec
  · cases hdec
  split at hdec
  · next hadm => exact Option.some.inj hdec ▸ distinct_of_admitted _ hadm
  · cases hdec

/-- An accepted value is in canonical form already, its strings included. -/
theorem sorted_nfc_of_parse {v : Json} {raw : Bytes} (h : parse raw = .ok v) :
    v = sorted (nfc v) := by
  obtain ⟨hdec, henc⟩ := of_parse h
  obtain ⟨hplain, hbytes⟩ := encode_eq_ok_iff.mp henc
  have hdec' : decode raw = some (sorted (nfc v)) :=
    decode_of_utf8Encode ((plain_sorted _).mpr hplain)
      ((distinct_sorted _).mpr (distinct_nfc v (distinct_of_parse h))) hbytes
  exact Option.some.inj (hdec.symm.trans hdec')

theorem clean_of_parse {v : Json} {raw : Bytes} (h : parse raw = .ok v) :
    v.Plain Clean Clean Bounded := by
  rw [sorted_nfc_of_parse h, plain_sorted]
  exact (encode_eq_ok_iff.mp (of_parse h).2).1

/-- **The canonical codec is a bijection on its image.** A record's bytes parse
back to it; accepted bytes are the bytes of what they decode to; so records with
the same bytes are the same, different accepted bytes decode to different values,
and the bytes spell a value whose keys are in UTF-16 order at every depth. -/
theorem codec_bijective :
    (∀ v, Record v → ∃ raw w, encode v = .ok raw ∧ parse raw = .ok w ∧ w.same v = true) ∧
    (∀ raw v, parse raw = .ok v → v.Strings (fun s => text s = s) → encode v = .ok raw) ∧
    (∀ v w, Record v → Record w → encode v = encode w → v.same w = true) ∧
    (∀ raw raw' v v', parse raw = .ok v → parse raw' = .ok v' → raw ≠ raw' → v.same v' = false) ∧
    (∀ v, Record v → ∃ raw w, encode v = .ok raw ∧ utf8Encode (compact escape w) = some raw ∧
      w.same v = true ∧ KeysOrdered w) := by
  have hsame : ∀ v, Record v → (sorted v).same v = true := fun v hv =>
    (same_iff _ _ hv.sorted.clean hv.clean hv.sorted.distinct hv.distinct).mpr (sorted_sorted v)
  refine ⟨fun v hv => ?_, fun raw v h hs => ?_, fun v w hv hw h => ?_,
    fun raw raw' v v' h h' hne => ?_, fun v hv => ?_⟩
  · obtain ⟨raw, hraw⟩ := exists_encode hv.clean
    exact ⟨raw, sorted v, hraw, parse_encode hv hraw, hsame v hv⟩
  · rw [← nfc_of_strings v hs (distinct_of_parse h)]
    exact (of_parse h).2
  · obtain ⟨raw, hraw⟩ := exists_encode hv.clean
    have hsorted := (parse_encode hv hraw).symm.trans (parse_encode hw (h ▸ hraw))
    exact (same_iff v w hv.clean hw.clean hv.distinct hw.distinct).mpr (Except.ok.inj hsorted)
  · by_contra hs
    have hsorted := (same_iff v v' (clean_of_parse h) (clean_of_parse h') (distinct_of_parse h)
      (distinct_of_parse h')).mp (by simpa using hs)
    -- both values are sorted, so they are one value, and it determines the bytes
    rw [sorted_nfc_of_parse h, sorted_nfc_of_parse h', sorted_sorted, sorted_sorted,
      ← sorted_nfc_of_parse h, ← sorted_nfc_of_parse h'] at hsorted
    have hbytes := (of_parse h).2
    rw [hsorted, (of_parse h').2] at hbytes
    exact hne (Except.ok.inj hbytes).symm
  · obtain ⟨raw, hraw⟩ := exists_encode hv.clean
    exact ⟨raw, sorted v, hraw, (encode_eq_ok_iff.mp hraw).2, hsame v hv,
      keysOrdered_sorted v hv.clean hv.distinct⟩

end

/-- A record with a nested list, a negative number and keys out of order. -/
def sampleRecord : Json :=
  .obj [(str "b", .list [.bool true, .int (-5)]), (str "a", .str (str "x\ny"))]

theorem codec_bijective_sample : ∃ raw w, encode sampleRecord = .ok raw ∧
    @parse Interp.ascii raw = .ok w ∧ w.same sampleRecord = true :=
  (@codec_bijective Interp.ascii).1 sampleRecord <| @Record.mk Interp.ascii _
    ⟨⟨rfl, rfl⟩, ⟨trivial, (by decide : (5 : Nat) < 2 ^ 53), trivial⟩, ⟨rfl, rfl⟩,
      ⟨rfl, rfl⟩, trivial⟩
    ⟨by decide, ⟨trivial, trivial, trivial⟩, trivial, trivial⟩

example : (encode sampleRecord).toOption = utf8Encode
    (str "\x7b\"a\":\"x\\ny\",\"b\":[true,-5]\x7d") := by
  decide

end Canon

end BeSdk
