import CodeActions.Json.Reading
import CodeActions.Proofs.Json.Canonical
import CodeActions.Proofs.Json.Reading
/-!
# Numbers in trees

All numbers that are read from a text come from its literals, so that the integers among them fit
64 bits. Tokens have this property, each step of the parser keeps it, and so does reading.
-/
namespace CodeActions.Json

def Scalar.AllNumbers (P : Number → Prop) : Scalar → Prop
  | .number (.ok n) => P n
  | _ => True

namespace Token

def AllNumbers (P : Number → Prop) : Token → Prop
  | .scalar s => s.AllNumbers P
  | _ => True

private theorem fits_number (o : Nat) (cs : List Char) : (number o cs).1.AllNumbers Number.Fits := by
  unfold number
  split
  · trivial
  · trivial
  case h_3 l width hscan =>
    split
    case h_1 n hn =>
      match n, hn with
      | .float _, _ => trivial
      | .int i, hn =>
        exact Literal.inRange_of_number? (toOption_eq_some_iff.mpr hn : l.number? = _)
    · trivial
    · trivial

private theorem fits_word (o : Nat) (letters cs : List Char) {s : Scalar} (h : s.AllNumbers Number.Fits) :
    (word o letters cs s).1.AllNumbers Number.Fits := by
  unfold word
  split
  · trivial
  · exact h

private theorem fits_text (o : Nat) (cs : List Char) : (text o cs).1.AllNumbers Number.Fits := by
  unfold text
  split <;> trivial

private theorem fits_first (o : Nat) (c : Char) (cs : List Char) :
    (first o c cs).1.AllNumbers Number.Fits := by
  unfold first
  split
  any_goals trivial
  · exact fits_word o _ cs trivial
  · exact fits_word o _ cs trivial
  · exact fits_word o _ cs trivial
  · exact fits_text o cs
  · split
    · exact fits_number o (c :: cs)
    · trivial

private theorem fits_scan (skip o : Nat) (cs : List Char) :
    ∀ t ∈ scan skip o cs, t.token.AllNumbers Number.Fits := by
  induction cs generalizing skip o with
  | nil => exact List.forall_mem_nil _
  | cons c cs ih =>
    cases skip with
    | succ skip => exact ih skip _
    | zero =>
      rw [scan]
      split
      · exact ih 0 _
      · dsimp only
        split
        · exact List.forall_mem_singleton.mpr (fits_first o c cs)
        · exact List.forall_mem_cons.mpr ⟨fits_first o c cs, ih _ _⟩

end Token

namespace Tree

mutual
def AllNumbers (P : Number → Prop) : Tree → Prop
  | .broken _ _ _ => True
  | .scalar _ _ s => s.AllNumbers P
  | .list _ ts _ => AllNumbersIn P ts
  | .object _ ms _ => AllNumbersAmong P ms

def AllNumbersIn (P : Number → Prop) : List Tree → Prop
  | [] => True
  | t :: ts => t.AllNumbers P ∧ AllNumbersIn P ts

def AllNumbersAmong (P : Number → Prop) : List (Key × Tree) → Prop
  | [] => True
  | (_, t) :: ms => t.AllNumbers P ∧ AllNumbersAmong P ms
end

variable {P : Number → Prop}

@[simp] theorem allNumbersIn_iff {ts : List Tree} :
    AllNumbersIn P ts ↔ ∀ t ∈ ts, t.AllNumbers P := by
  induction ts with
  | nil => simp [AllNumbersIn]
  | cons t ts ih => simp [AllNumbersIn, ih]

@[simp] theorem allNumbersAmong_iff {ms : List (Key × Tree)} :
    AllNumbersAmong P ms ↔ ∀ m ∈ ms, m.2.AllNumbers P := by
  induction ms with
  | nil => simp [AllNumbersAmong]
  | cons m ms ih => simp [AllNumbersAmong, ih]

def Frame.AllNumbers (P : Number → Prop) : Frame → Prop
  | .list _ items => ∀ t ∈ items, t.AllNumbers P
  | .object _ members | .member _ members _ => ∀ m ∈ members, m.2.AllNumbers P

def Spot.AllNumbers (P : Number → Prop) : Spot → Prop
  | .done t => t.AllNumbers P
  | _ => True

def Move.AllNumbers (P : Number → Prop) : Move → Prop
  | .go spot fs => spot.AllNumbers P ∧ ∀ f ∈ fs, f.AllNumbers P
  | .stop p => p.tree.AllNumbers P

private theorem abandon_allNumbers (read skip : Fault) {t : Option Tree}
    (ht : ∀ u ∈ t, u.AllNumbers P) {fs : List Frame} (hfs : ∀ f ∈ fs, f.AllNumbers P) :
    (abandon read skip t fs).tree.AllNumbers P := by
  have hvalue : (t.getD (.broken read.offset read skip)).AllNumbers P := by
    cases t with
    | none => trivial
    | some u => exact ht u rfl
  induction fs generalizing t with
  | nil => exact hvalue
  | cons f fs ih =>
    obtain ⟨hf, hfs⟩ := List.forall_mem_cons.mp hfs
    -- The container of the frame, ended here, is the part that is handed on.
    have hnext : ∀ u : Tree, u.AllNumbers P → (abandon read skip (some u) fs).tree.AllNumbers P :=
      fun u hu => ih (by rintro _ ⟨⟩; exact hu) hfs hu
    cases f with
    | list start items =>
      refine hnext _ (allNumbersIn_iff.mpr fun u hu => ?_)
      rcases List.mem_append.mp (List.mem_reverse.mp hu) with hu | hu
      · exact ht u (Option.mem_toList.mp hu)
      · exact hf u hu
    | object start members =>
      exact hnext _ (allNumbersAmong_iff.mpr fun m hm => hf m (List.mem_reverse.mp hm))
    | member start members key =>
      refine hnext _ (allNumbersAmong_iff.mpr fun m hm => ?_)
      rcases List.mem_cons.mp (List.mem_reverse.mp hm) with rfl | hm
      · exact hvalue
      · exact hf m hm

private theorem noValue_allNumbers (read skip : Fault) (peek : Nat) {fs : List Frame}
    (hfs : ∀ f ∈ fs, f.AllNumbers P) : (noValue read skip peek fs).tree.AllNumbers P :=
  abandon_allNumbers read skip (by rintro _ ⟨⟩; trivial) hfs

private theorem noPart_allNumbers (read skip : Fault) {fs : List Frame}
    (hfs : ∀ f ∈ fs, f.AllNumbers P) : (noPart read skip fs).tree.AllNumbers P :=
  abandon_allNumbers read skip (by rintro _ ⟨⟩) hfs

private theorem attach_allNumbers {t : Tree} (ht : t.AllNumbers P) {fs : List Frame}
    (hfs : ∀ f ∈ fs, f.AllNumbers P) : (attach t fs).AllNumbers P := by
  cases fs with
  | nil => exact ⟨ht, hfs⟩
  | cons f fs =>
    obtain ⟨hf, hrest⟩ := List.forall_mem_cons.mp hfs
    cases f with
    | list start items =>
      exact ⟨trivial, List.forall_mem_cons.mpr ⟨List.forall_mem_cons.mpr ⟨ht, hf⟩, hrest⟩⟩
    | object start members => exact ⟨trivial, List.forall_mem_cons.mpr ⟨hf, hrest⟩⟩
    | member start members key =>
      exact ⟨trivial, List.forall_mem_cons.mpr ⟨List.forall_mem_cons.mpr ⟨ht, hf⟩, hrest⟩⟩

private theorem closedList_allNumbers (start stop : Nat) {items : List Tree}
    (h : ∀ u ∈ items, u.AllNumbers P) :
    (list start items.reverse (.closed stop)).AllNumbers P :=
  allNumbersIn_iff.mpr fun u hu => h u (List.mem_reverse.mp hu)

private theorem closedObject_allNumbers (start stop : Nat) {members : List (Key × Tree)}
    (h : ∀ m ∈ members, m.2.AllNumbers P) :
    (object start members.reverse (.closed stop)).AllNumbers P :=
  allNumbersAmong_iff.mpr fun m hm => h m (List.mem_reverse.mp hm)

section
variable {t : Located} (ht : t.token.AllNumbers P)
include ht

private theorem onValue_allNumbers {fs : List Frame} (hfs : ∀ f ∈ fs, f.AllNumbers P) :
    (onValue fs t).AllNumbers P := by
  unfold onValue
  split
  · exact ⟨trivial, List.forall_mem_cons.mpr ⟨List.forall_mem_nil _, hfs⟩⟩
  · exact ⟨trivial, List.forall_mem_cons.mpr ⟨List.forall_mem_nil _, hfs⟩⟩
  case h_3 s hs =>
    rw [hs] at ht
    exact attach_allNumbers (show (scalar t.start t.stop s).AllNumbers P from ht) hfs
  all_goals exact noValue_allNumbers _ _ _ hfs

end

private theorem onKey_allNumbers {fs : List Frame} (hfs : ∀ f ∈ fs, f.AllNumbers P) (t : Located)
    (early : Cause) : (onKey fs t early).AllNumbers P := by
  unfold onKey
  dsimp only
  split
  · exact ⟨trivial, hfs⟩
  all_goals exact noPart_allNumbers _ _ hfs

private theorem afterItem_allNumbers (t : Located) (start : Nat) {items : List Tree}
    (hitems : ∀ u ∈ items, u.AllNumbers P) {fs : List Frame} (hfs : ∀ f ∈ fs, f.AllNumbers P) :
    (afterItem t start items fs).AllNumbers P := by
  have hopen : ∀ f ∈ Frame.list start items :: fs, f.AllNumbers P :=
    List.forall_mem_cons.mpr ⟨hitems, hfs⟩
  unfold afterItem
  split
  · exact ⟨trivial, hopen⟩
  · exact attach_allNumbers (closedList_allNumbers start t.stop hitems) hfs
  · exact noPart_allNumbers _ _ hopen

private theorem afterMember_allNumbers (t : Located) (start : Nat) {members : List (Key × Tree)}
    (hmembers : ∀ m ∈ members, m.2.AllNumbers P) {fs : List Frame}
    (hfs : ∀ f ∈ fs, f.AllNumbers P) : (afterMember t start members fs).AllNumbers P := by
  have hopen : ∀ f ∈ Frame.object start members :: fs, f.AllNumbers P :=
    List.forall_mem_cons.mpr ⟨hmembers, hfs⟩
  unfold afterMember
  split
  · exact ⟨trivial, hopen⟩
  · exact attach_allNumbers (closedObject_allNumbers start t.stop hmembers) hfs
  · exact noPart_allNumbers _ _ hopen

private theorem step_allNumbers {t : Located} (ht : t.token.AllNumbers P) {spot : Spot}
    (hspot : spot.AllNumbers P) {fs : List Frame} (hfs : ∀ f ∈ fs, f.AllNumbers P) :
    (step spot fs t).AllNumbers P := by
  unfold step
  split
  case h_1 => exact onValue_allNumbers ht hfs
  case h_2 start items fs =>
    obtain ⟨hitems, hrest⟩ := List.forall_mem_cons.mp hfs
    split
    · exact attach_allNumbers (closedList_allNumbers start t.stop hitems) hrest
    · exact onValue_allNumbers ht hfs
  case h_3 => exact onValue_allNumbers ht hfs
  case h_4 =>
    split
    · exact noValue_allNumbers _ _ _ hfs
    · exact onValue_allNumbers ht hfs
  case h_5 start members fs =>
    obtain ⟨hmembers, hrest⟩ := List.forall_mem_cons.mp hfs
    split
    · exact attach_allNumbers (closedObject_allNumbers start t.stop hmembers) hrest
    · exact onKey_allNumbers hfs t _
  case h_6 => exact onKey_allNumbers hfs t _
  case h_7 => exact onKey_allNumbers hfs t _
  case h_8 name start members fs =>
    obtain ⟨hmembers, hrest⟩ := List.forall_mem_cons.mp hfs
    have hopen : ∀ key, ∀ f ∈ Frame.member start members key :: fs, f.AllNumbers P :=
      fun key => List.forall_mem_cons.mpr ⟨hmembers, hrest⟩
    dsimp only
    split
    · exact ⟨trivial, hopen _⟩
    · exact noValue_allNumbers _ _ _ (hopen _)
  case h_9 => exact onValue_allNumbers ht hfs
  case h_10 start items fs =>
    obtain ⟨hitems, hrest⟩ := List.forall_mem_cons.mp hfs
    exact afterItem_allNumbers t start hitems hrest
  case h_11 start members fs =>
    obtain ⟨hmembers, hrest⟩ := List.forall_mem_cons.mp hfs
    exact afterMember_allNumbers t start hmembers hrest
  case h_12 start members key fs =>
    obtain ⟨hmembers, hrest⟩ := List.forall_mem_cons.mp hfs
    exact afterMember_allNumbers t start hmembers hrest
  case h_13 => exact onValue_allNumbers ht hfs
  case h_14 => exact hspot

private theorem atEnd_allNumbers (stop : Nat) {spot : Spot} (hspot : spot.AllNumbers P) {fs : List Frame}
    (hfs : ∀ f ∈ fs, f.AllNumbers P) : (atEnd stop spot fs).tree.AllNumbers P := by
  unfold atEnd
  split
  case h_6 name start members fs =>
    obtain ⟨hmembers, hrest⟩ := List.forall_mem_cons.mp hfs
    exact noValue_allNumbers _ _ _ (List.forall_mem_cons.mpr ⟨hmembers, hrest⟩)
  case h_10 => exact hspot
  all_goals first | exact noValue_allNumbers _ _ _ hfs | exact noPart_allNumbers _ _ hfs

private theorem build_allNumbers (stop : Nat) {ts : List Located} (hts : ∀ t ∈ ts, t.token.AllNumbers P)
    {spot : Spot} (hspot : spot.AllNumbers P) {fs : List Frame}
    (hfs : ∀ f ∈ fs, f.AllNumbers P) : (build stop spot fs ts).tree.AllNumbers P := by
  induction ts generalizing spot fs with
  | nil => exact atEnd_allNumbers stop hspot hfs
  | cons t ts ih =>
    obtain ⟨ht, hts⟩ := List.forall_mem_cons.mp hts
    have hstep := step_allNumbers ht hspot hfs
    rw [build]
    cases hmove : step spot fs t with
    | go spot fs =>
      rw [hmove] at hstep
      exact ih hts hstep.1 hstep.2
    | stop p =>
      rw [hmove] at hstep
      exact hstep

mutual
private theorem allNumbers_of_readDocument : (t : Tree) → t.AllNumbers P → {depth : Nat} → {v : Value} →
    t.readDocument depth = .ok v → v.AllNumbers P
  | .broken _ _ _, _, _, _, h => by cases h
  | .scalar _ _ .null, _, _, _, h => by cases h; trivial
  | .scalar _ _ (.bool _), _, _, _, h => by cases h; trivial
  | .scalar _ _ (.number n), ht, _, _, h => by
    obtain ⟨n, rfl, rfl⟩ := exists_of_map h
    exact ht
  | .scalar _ _ (.text s), _, _, _, h => by
    obtain ⟨s, rfl, rfl⟩ := exists_of_map h
    trivial
  | .list _ _ _, _, 0, _, h => by cases h
  | .list _ ts _, ht, depth + 1, _, h => by
    obtain ⟨vs, hvs, h⟩ := exists_of_bind h
    obtain ⟨_, -, h⟩ := exists_of_bind h
    cases h
    exact allNumbersIn_of_readItems ts ht hvs
  | .object _ _ _, _, 0, _, h => by cases h
  | .object _ ms _, ht, depth + 1, _, h => by
    obtain ⟨ns, hns, h⟩ := exists_of_bind h
    obtain ⟨_, -, h⟩ := exists_of_bind h
    cases h
    exact allNumbersAmong_of_readMembers ms ht hns

private theorem allNumbersIn_of_readItems : (ts : List Tree) → AllNumbersIn P ts → {depth : Nat} →
    {vs : List Value} → readItems depth ts = .ok vs → Value.AllNumbersIn P vs
  | [], _, _, _, h => by cases h; trivial
  | t :: ts, ht, depth, _, h => by
    obtain ⟨v, hv, h⟩ := exists_of_bind h
    obtain ⟨vs, hvs, h⟩ := exists_of_bind h
    cases h
    exact ⟨allNumbers_of_readDocument t ht.1 hv, allNumbersIn_of_readItems ts ht.2 hvs⟩

private theorem allNumbersAmong_of_readMembers : (ms : List (Key × Tree)) → AllNumbersAmong P ms →
    {depth : Nat} → {ns : List (String × Value)} → readMembers depth ms = .ok ns →
    Value.AllNumbersAmong P ns
  | [], _, _, _, h => by cases h; trivial
  | (_, t) :: ms, ht, depth, _, h => by
    obtain ⟨k, -, h⟩ := exists_of_bind h
    obtain ⟨v, hv, h⟩ := exists_of_bind h
    obtain ⟨ns, hns, h⟩ := exists_of_bind h
    cases h
    exact ⟨allNumbers_of_readDocument t ht.1 hv, allNumbersAmong_of_readMembers ms ht.2 hns⟩
end

theorem of_readValue {t : Tree} (ht : t.AllNumbers P) {depth : Nat} {v : Value}
    (h : t.readValue depth = .ok v) : v.IsCanonical ∧ v.AllNumbers P := by
  obtain ⟨w, hw, rfl⟩ := exists_of_map h
  exact ⟨Value.isCanonical_canonical w,
    Value.allNumbers_canonical w (allNumbers_of_readDocument t ht hw)⟩

end Tree

theorem parse_fits (text : String) : (parse text).tree.AllNumbers Number.Fits :=
  Tree.build_allNumbers _ (Token.fits_scan 0 0 text.toList)
    (show Tree.Spot.value.AllNumbers Number.Fits from trivial) (List.forall_mem_nil _)

end CodeActions.Json
