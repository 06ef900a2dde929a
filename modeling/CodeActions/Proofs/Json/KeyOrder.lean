import CodeActions.Proofs.Json.Resolution
import Mathlib.Data.List.Nodup
/-!
# The order of keys

Texts are in the order of their UTF-8 bytes (`bytes_lt`), so the objects of a canonical value are
sorted by the bytes of their keys. Which members are sorted matters if no key is repeated, but not
in which order they come (`sorted_perm`).
-/
namespace CodeActions.Json

def bytes (s : String) : List UInt8 := s.toUTF8.data.toList

private theorem utf8EncodeChar_append_lt {c d : Char} (h : c < d) (as bs : List UInt8) :
    String.utf8EncodeChar c ++ as < String.utf8EncodeChar d ++ bs := by
  have hlt : c.val.toNat < d.val.toNat := UInt32.lt_iff_toNat_lt.mp h
  have hbound : d.val.toNat < 0x110000 := by
    rcases d.valid with hd | hd
    · exact Nat.lt_trans hd (by decide)
    · exact hd.2
  unfold String.utf8EncodeChar
  generalize c.val.toNat = m at *
  generalize d.val.toNat = n at *
  dsimp only
  -- The first byte tells how many there are, more for greater characters; then come the bits.
  split_ifs <;>
    simp only [List.cons_append, List.nil_append, List.cons_lt_cons_iff, UInt8.lt_iff_toNat_lt,
      ← UInt8.toNat_inj, UInt8.toNat_ofNat'] <;>
    simp (disch := omega) only [Nat.mod_eq_of_lt] <;>
    omega

private theorem bytes_eq_flatMap (s : String) : bytes s = s.toList.flatMap String.utf8EncodeChar := by
  have hbytes : s.toUTF8 = s.toList.utf8Encode := String.utf8Encode_toList.symm
  rw [bytes, hbytes, List.utf8Encode, List.data_toByteArray]

theorem bytes_lt {s t : String} (h : s < t) : bytes s < bytes t := by
  have hlex {cs ds : List Char} (h : cs < ds) :
      cs.flatMap String.utf8EncodeChar < ds.flatMap String.utf8EncodeChar := by
    induction h with
    | @nil d ds =>
      rw [List.flatMap_cons]
      cases hd : String.utf8EncodeChar d with
      | nil => exact absurd hd String.utf8EncodeChar_ne_nil
      | cons b bs => exact List.nil_lt_cons _ _
    | @cons c cs ds _ ih => exact List.append_left_lt ih
    | @rel c cs d ds hlt => exact utf8EncodeChar_append_lt hlt _ _
  rw [bytes_eq_flatMap, bytes_eq_flatMap]
  exact hlex h

namespace Value

def ByBytes (ms : List (String × Value)) : Prop := ms.Pairwise fun m n => bytes m.1 < bytes n.1

mutual
/-- Whether the members of every object in a value have a property. -/
def EveryObject (P : List (String × Value) → Prop) : Value → Prop
  | .list vs => EveryObjectIn P vs
  | .object ms => P ms ∧ EveryObjectAmong P ms
  | _ => True

def EveryObjectIn (P : List (String × Value) → Prop) : List Value → Prop
  | [] => True
  | v :: vs => v.EveryObject P ∧ EveryObjectIn P vs

def EveryObjectAmong (P : List (String × Value) → Prop) : List (String × Value) → Prop
  | [] => True
  | (_, v) :: ms => v.EveryObject P ∧ EveryObjectAmong P ms
end

mutual
theorem everyObject_of_isCanonical : (v : Value) → v.IsCanonical → v.EveryObject ByBytes
  | .null, _ | .bool _, _ | .number _, _ | .text _, _ => trivial
  | .list vs, h => everyObjectIn_of_isCanonical vs h
  | .object ms, h => ⟨h.1.imp fun hlt => bytes_lt hlt, everyObjectAmong_of_isCanonical ms h.2⟩

private theorem everyObjectIn_of_isCanonical : (vs : List Value) → IsCanonicalIn vs →
    EveryObjectIn ByBytes vs
  | [], _ => trivial
  | v :: vs, h => ⟨everyObject_of_isCanonical v h.1, everyObjectIn_of_isCanonical vs h.2⟩

private theorem everyObjectAmong_of_isCanonical : (ms : List (String × Value)) → IsCanonicalAmong ms →
    EveryObjectAmong ByBytes ms
  | [], _ => trivial
  | (_, v) :: ms, h => ⟨everyObject_of_isCanonical v h.1, everyObjectAmong_of_isCanonical ms h.2⟩
end

section sorted
variable {ms ns : List (String × Value)}

private theorem eq_of_byKey (hms : ByKey ms) (hns : ByKey ns) (h : ∀ m, m ∈ ms ↔ m ∈ ns) : ms = ns := by
  have hasymm : ∀ m n : String × Value, m ∈ ms → n ∈ ns → m.1 < n.1 → n.1 < m.1 → m = n :=
    fun m n _ _ hmn hnm => absurd hnm (String.lt_asymm hmn)
  have hperm : ms.Perm ns :=
    (List.perm_ext_iff_of_nodup (nodup_of_byKey hms).of_map (nodup_of_byKey hns).of_map).mpr h
  exact List.Perm.eq_of_pairwise hasymm hms hns hperm

private theorem filter_key_of_mem (h : (ms.map Prod.fst).Nodup) {m : String × Value} (hm : m ∈ ms) :
    ms.filter (fun n => n.1 = m.1) = [m] := by
  induction ms with
  | nil => cases hm
  | cons n ms ih =>
    obtain ⟨hn, hms⟩ := List.nodup_cons.mp h
    rcases List.mem_cons.mp hm with rfl | hm
    · have hrest : ms.filter (fun n => n.1 = m.1) = [] := by
        rw [List.filter_eq_nil_iff]
        intro n hmem heq
        exact hn (of_decide_eq_true heq ▸ List.mem_map_of_mem hmem)
      rw [List.filter_cons_of_pos (by simp), hrest]
    · have hne : n.1 ≠ m.1 := fun heq => hn (heq ▸ List.mem_map_of_mem hm)
      rw [List.filter_cons_of_neg (by simpa using hne), ih hms hm]

private theorem mem_sorted_of_nodup (h : (ms.map Prod.fst).Nodup) {m : String × Value} :
    m ∈ sorted ms ↔ m ∈ ms := by
  refine ⟨mem_of_mem_sorted, fun hm => ?_⟩
  rw [mem_sorted_iff, filter_key_of_mem h hm, List.getLast?_singleton]

theorem sorted_perm (h : ms.Perm ns) (hnodup : (ms.map Prod.fst).Nodup) :
    sorted ms = sorted ns := by
  have hnodup' : (ns.map Prod.fst).Nodup := (h.map Prod.fst).nodup_iff.mp hnodup
  refine eq_of_byKey (byKey_sorted ms) (byKey_sorted ns) fun m => ?_
  rw [mem_sorted_of_nodup hnodup, mem_sorted_of_nodup hnodup', h.mem_iff]

end sorted
end Value
end CodeActions.Json
