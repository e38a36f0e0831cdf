import BlockDocument.Allocator
import BlockDocument.Proofs.BlockId

/-!
# Ids by content

The bytes that are hashed for a block are its kind, its text and its role with a zero byte between them.
The text may hold zero bytes of its own, but names hold none, so the first zero byte of all ends the
kind and the last one begins the role: no two blocks that differ in one of the three share these bytes.
Should their ids be the same nonetheless, or should the id be in use, the salts are tried in order, and
the first one with an id that is free decides.
-/

namespace BlockDocument

/-! ## Parts between zero bytes -/

section Cuts

variable {as bs xs ys : List UInt8}

/-- Without zero bytes of its own, a first part ends where the first zero byte stands. -/
theorem append_zero_inj (ha : 0 ∉ as) (hb : 0 ∉ bs) :
    as ++ 0 :: xs = bs ++ 0 :: ys ↔ as = bs ∧ xs = ys := by
  constructor
  · intro h
    induction as generalizing bs with
    | nil =>
      cases bs with
      | nil => exact ⟨rfl, List.tail_eq_of_cons_eq h⟩
      | cons b bs =>
        obtain rfl : 0 = b := List.head_eq_of_cons_eq h
        exact absurd (List.mem_cons_self ..) hb
    | cons a as ih =>
      cases bs with
      | nil =>
        obtain rfl : a = 0 := List.head_eq_of_cons_eq h
        exact absurd (List.mem_cons_self ..) ha
      | cons b bs =>
        obtain ⟨rfl, hrest⟩ := List.cons_eq_cons.mp h
        obtain ⟨rfl, hxs⟩ :=
          ih (fun h0 => ha (List.mem_cons_of_mem a h0))
            (fun h0 => hb (List.mem_cons_of_mem a h0)) hrest
        exact ⟨rfl, hxs⟩
  · rintro ⟨rfl, rfl⟩
    rfl

/-- Without zero bytes of its own, a last part begins behind the last zero byte. -/
theorem zero_append_inj (hx : 0 ∉ xs) (hy : 0 ∉ ys) :
    as ++ 0 :: xs = bs ++ 0 :: ys ↔ as = bs ∧ xs = ys := by
  rw [← List.reverse_inj, List.reverse_append, List.reverse_append, List.reverse_cons,
    List.reverse_cons, List.append_assoc, List.append_assoc, List.singleton_append,
    List.singleton_append, append_zero_inj (by rwa [List.mem_reverse]) (by rwa [List.mem_reverse]),
    List.reverse_inj, List.reverse_inj, and_comm]

end Cuts

/-! ## The bytes of a text -/

theorem toList_loop_eq (bytes : ByteArray) (i : Nat) (read : List UInt8) :
    ByteArray.toList.loop bytes i read = read.reverse ++ bytes.data.toList.drop i := by
  induction i, read using ByteArray.toList.loop.induct bytes with
  | case1 i read hi ih =>
    have hlt : i < bytes.data.toList.length := hi
    have hget : bytes.get! i = bytes.data.toList[i] := getElem!_pos bytes.data i hi
    rw [ByteArray.toList.loop, if_pos hi, ih, hget, List.drop_eq_getElem_cons hlt, List.reverse_cons,
      List.append_assoc, List.singleton_append]
  | case2 i read hi =>
    have hle : bytes.data.toList.length ≤ i := Nat.le_of_not_lt hi
    rw [ByteArray.toList.loop, if_neg hi, List.drop_eq_nil_of_le hle, List.append_nil]

theorem utf8_eq (s : String) : utf8 s = s.toByteArray.data.toList := by
  rw [utf8, ByteArray.toList, toList_loop_eq]
  rfl

/-- A text is known by its bytes. -/
theorem utf8_inj {s t : String} : utf8 s = utf8 t ↔ s = t := by
  rw [utf8_eq, utf8_eq, ← String.toByteArray_inj, Array.toList_inj, ByteArray.ext_iff]

namespace ContentKind

theorem zero_not_mem_name (k : ContentKind) : 0 ∉ utf8 k.name := by
  rw [utf8_eq]
  cases k <;> decide +kernel

theorem name_inj {k k' : ContentKind} : k.name = k'.name ↔ k = k' := by
  have hmem (k : ContentKind) : k ∈ all := by cases k <;> decide
  have hnodup : (all.map name).Nodup := by simp [all, name]
  exact ⟨fun h => List.inj_on_of_nodup_map hnodup (hmem k) (hmem k') h, congrArg name⟩

end ContentKind

namespace Role

theorem mem_all (r : Role) : r ∈ all := by cases r <;> decide

theorem name_inj {r r' : Role} : r.name = r'.name ↔ r = r' := by
  have hnodup : (all.map name).Nodup := by simp [all, name]
  exact ⟨fun h => List.inj_on_of_nodup_map hnodup r.mem_all r'.mem_all h, congrArg name⟩

theorem name_ne_empty (r : Role) : r.name ≠ "" := by
  cases r <;> simp [name]

/-- A role, or that there is none, is known by its name or its lack of one. -/
theorem name_getD_inj {role role' : Option Role} :
    (role.map name).getD "" = (role'.map name).getD "" ↔ role = role' := by
  cases role with
  | none =>
    cases role' with
    | none => exact iff_of_true rfl rfl
    | some r' => exact iff_of_false r'.name_ne_empty.symm (Option.some_ne_none r').symm
  | some r =>
    cases role' with
    | none => exact iff_of_false r.name_ne_empty (Option.some_ne_none r)
    | some r' => exact name_inj.trans Option.some_inj.symm

theorem zero_not_mem_name (role : Option Role) : 0 ∉ utf8 ((role.map name).getD "") := by
  have hnames : ∀ r ∈ all, 0 ∉ r.name.toByteArray.data.toList := by decide +kernel
  rw [utf8_eq]
  cases role with
  | none => exact List.not_mem_nil
  | some r => exact hnames r r.mem_all

end Role

/-- Blocks share the bytes that are hashed only if they have the same kind, text and role. -/
theorem addressBytes_inj {c c' : Content} {role role' : Option Role} :
    addressBytes c role 0 = addressBytes c' role' 0 ↔
      c.kind = c'.kind ∧ c.asText = c'.asText ∧ role = role' := by
  rw [addressBytes, addressBytes, if_pos rfl, List.append_nil, List.append_nil,
    zero_append_inj (Role.zero_not_mem_name role) (Role.zero_not_mem_name role'),
    append_zero_inj c.kind.zero_not_mem_name c'.kind.zero_not_mem_name, utf8_inj, utf8_inj, utf8_inj,
    ContentKind.name_inj, Role.name_getD_inj, and_assoc]

/-! ## The form of the ids -/

theorem Hash.Blake3.length_hash (bytes : List UInt8) : (hash bytes).length = 32 := by
  have hword (x : UInt32) : (wordBytes x).length = 4 := rfl
  simp [hash, List.length_flatMap, hword]

theorem length_flatMap_byteDigits (bytes : List UInt8) :
    (bytes.flatMap byteDigits).length = 2 * bytes.length := by
  have hbyte (b : UInt8) : (byteDigits b).length = 2 := rfl
  simp [List.length_flatMap, hbyte, Nat.mul_comm]

theorem isHexDigit_byteDigits (b : UInt8) : ∀ c ∈ byteDigits b, BlockId.isHexDigit c = true := by
  intro c hc
  have hdigit (n : Nat) : BlockId.isHexDigit (Number.hexDigit n) = true :=
    BlockId.isHexDigit_digitChar (Nat.mod_lt n (by decide))
  rcases List.mem_pair.mp hc with rfl | rfl <;> exact hdigit _

/-- Ids by content have the form of issued ones. -/
theorem isWellFormed_contentAddress (c : Content) (role : Option Role) (salt : Nat) :
    (contentAddress c role salt).isWellFormed = true := by
  have hlength : (((Hash.Blake3.hash (addressBytes c role salt)).take
      (BlockId.digitCount / 2)).flatMap byteDigits).length = BlockId.digitCount := by
    rw [length_flatMap_byteDigits, List.length_take, Hash.Blake3.length_hash]
    rfl
  rw [BlockId.isWellFormed, contentAddress, BlockId.suffixDigits?_of_digits hlength]
  · rfl
  · intro c hc
    obtain ⟨b, -, hc⟩ := List.mem_flatMap.mp hc
    exact isHexDigit_byteDigits b c hc

/-! ## The search for a free id -/

/-- The search ends at the first candidate that is free. -/
theorem exists_firstFree_eq {candidate : Nat → BlockId} {taken : BlockId → Bool} {fuel n k : Nat}
    (hn : n ≤ k) (hk : k < n + fuel) (hfree : taken (candidate k) = false) :
    ∃ m, n ≤ m ∧ m ≤ k ∧ firstFree candidate taken fuel n = some (candidate m, m + 1) ∧
      taken (candidate m) = false ∧ ∀ i, n ≤ i → i < m → taken (candidate i) = true := by
  induction fuel generalizing n with
  | zero => omega
  | succ fuel ih =>
    rw [firstFree]
    cases ht : taken (candidate n) with
    | false => exact ⟨n, Nat.le_refl n, hn, by simp, ht, fun i hi hlt => by omega⟩
    | true =>
      have hne : n ≠ k := by
        rintro rfl
        simp [ht] at hfree
      obtain ⟨m, hm, hle, heq, hfree', hbefore⟩ := ih (n := n + 1) (by omega) (by omega)
      refine ⟨m, by omega, hle, by simpa using heq, hfree', fun i hi hlt => ?_⟩
      obtain rfl | hi := Nat.eq_or_lt_of_le hi
      · exact ht
      · exact hbefore i hi hlt

/-- **What an id by content stands for.** The bytes that are hashed for it, before any salt, tell the
kind, the text and the role, whatever the text is. And as soon as an id is free under some salt, the block
is named by the one of the least such salt, which has the form of an issued id; the allocator stays as
it is. -/
theorem Allocator.allocate_contentAddressed :
    (∀ (c c' : Content) (role role' : Option Role),
      addressBytes c role 0 = addressBytes c' role' 0 ↔
        c.kind = c'.kind ∧ c.asText = c'.asText ∧ role = role') ∧
    ∀ (a : Allocator) (c : Content) (role : Option Role) (taken : BlockId → Bool),
      a.policy = .contentAddressed →
      (∃ salt < saltBound, taken (contentAddress c role salt) = false) →
        ∃ salt < saltBound, a.allocate c role taken = (some (contentAddress c role salt), a) ∧
          (contentAddress c role salt).isWellFormed = true ∧
          taken (contentAddress c role salt) = false ∧
          ∀ s < salt, taken (contentAddress c role s) = true := by
  refine ⟨fun c c' role role' => addressBytes_inj, fun a c role taken hpolicy hfree => ?_⟩
  obtain ⟨k, hk, hfree⟩ := hfree
  obtain ⟨salt, -, hle, heq, hfree, hbefore⟩ :=
    exists_firstFree_eq (Nat.zero_le k) (by rwa [Nat.zero_add]) hfree
  refine ⟨salt, Nat.lt_of_le_of_lt hle hk, ?_, isWellFormed_contentAddress c role salt, hfree,
    fun s hs => hbefore s (Nat.zero_le s) hs⟩
  rw [allocate, hpolicy, heq]
  rfl

/-- The id of the text "a" is in use, so the text is named by the id under the next salt. -/
theorem Allocator.allocate_contentAddressed_taken :
    let a : Allocator := ⟨.contentAddressed, 1⟩
    let taken : BlockId → Bool := fun id => id == ⟨"blk_21abfe2aa0ab"⟩
    a.policy = .contentAddressed ∧
      (∃ salt < saltBound, taken (contentAddress (.text "a") none salt) = false) ∧
      contentAddress (.text "a") none 0 = ⟨"blk_21abfe2aa0ab"⟩ ∧
      a.allocate (.text "a") none taken = (some ⟨"blk_b6916e59fca2"⟩, a) := by
  intro a taken
  have hzero : contentAddress (.text "a") none 0 = ⟨"blk_21abfe2aa0ab"⟩ := by decide +kernel
  have hone : contentAddress (.text "a") none 1 = ⟨"blk_b6916e59fca2"⟩ := by decide +kernel
  have hfree : ∃ salt < saltBound, taken (contentAddress (.text "a") none salt) = false :=
    ⟨1, by decide, by rw [hone]; decide⟩
  obtain ⟨salt, -, hallocate, -, hsalt, hbefore⟩ :=
    allocate_contentAddressed.2 a (.text "a") none taken rfl hfree
  have hpos : salt ≠ 0 := by
    rintro rfl
    rw [hzero] at hsalt
    exact absurd hsalt (by decide)
  have hle : ¬ 1 < salt := by
    intro hlt
    have htaken := hbefore 1 hlt
    rw [hone] at htaken
    exact absurd htaken (by decide)
  obtain rfl : salt = 1 := by omega
  exact ⟨rfl, hfree, hzero, by rw [hallocate, hone]⟩

end BlockDocument
