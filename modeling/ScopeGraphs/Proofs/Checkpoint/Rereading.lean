import Mathlib.Algebra.Group.Nat.Defs
import ScopeGraphs.Checkpoint.Storable
import ScopeGraphs.Proofs.Sorted

/-!
# Reading a checkpoint again

What was written down is read as it was, and reading stops where the value ends, so values can be
written one after the other. Both sides go through a value in the same way, shape by shape; what
has to be seen is that the length of every part can be told from its first bytes.

The first byte of a number says how many bytes follow, that of a character how many there are, and
texts, lists and maps begin with their length. A length is written as a number of 64 bits, so
nothing may be longer than these can tell (`Shape.Fits`).
-/

namespace ScopeGraphs

namespace Checkpoint

/-! ## Integers -/

theorem length_littleEndian (k n : Nat) : (littleEndian k n).length = k := by
  induction k generalizing n with
  | zero => rfl
  | succ k ih => rw [littleEndian, List.length_cons, ih]

theorem ofLittleEndian_littleEndian {k n : Nat} (h : n < 256 ^ k) :
    ofLittleEndian (littleEndian k n) = n := by
  induction k generalizing n with
  | zero =>
    rw [Nat.pow_zero, Nat.lt_one_iff] at h
    rw [h]
    rfl
  | succ k ih =>
    rw [Nat.pow_succ, Nat.mul_comm] at h
    rw [littleEndian, ofLittleEndian, ih (Nat.div_lt_of_lt_mul h), UInt8.toNat_ofNat',
      Nat.mod_eq_of_lt (Nat.mod_lt n (by decide)), Nat.mod_add_div]

theorem take?_append {k : Nat} {bs : Bytes} (h : bs.length = k) (rest : Bytes) :
    take? k (bs ++ rest) = some (bs, rest) := by
  rw [take?, if_pos, List.take_left' h, List.drop_left' h]
  rw [List.length_append, h]
  exact Nat.le_add_right k _

/-- What follows a marker is read as a number of that many bytes. -/
theorem decodeNat?_marker {w : Width} {k n : Nat} {b : UInt8} (hn : n < 256 ^ k) (hk : k ≤ w.bytes)
    (hb : b = 251 ∧ k = 2 ∨ b = 252 ∧ k = 4 ∨ b = 253 ∧ k = 8 ∨ b = 254 ∧ k = 16) (rest : Bytes) :
    decodeNat? w (b :: littleEndian k n ++ rest) = some (n, rest) := by
  have hread : (take? k (littleEndian k n ++ rest)).map (fun r ↦ (ofLittleEndian r.1, r.2)) =
      some (n, rest) := by
    rw [take?_append (length_littleEndian k n), Option.map_some, ofLittleEndian_littleEndian hn]
  rw [List.cons_append, decodeNat?]
  rcases hb with ⟨rfl, rfl⟩ | ⟨rfl, rfl⟩ | ⟨rfl, rfl⟩ | ⟨rfl, rfl⟩ <;>
    exact (if_pos hk).trans hread

/-- A number is read as it was written, if it has the width that is expected. -/
theorem decodeNat?_encodeNat {w : Width} {n : Nat} (h : n < w.bound) (rest : Bytes) :
    decodeNat? w (encodeNat n ++ rest) = some (n, rest) := by
  rw [encodeNat]
  split
  · rename_i hn
    have htoNat : (UInt8.ofNat n).toNat = n := by
      rw [UInt8.toNat_ofNat', Nat.mod_eq_of_lt (by omega)]
    have hlt : UInt8.ofNat n < 251 := by
      rw [UInt8.lt_iff_toNat_lt, htoNat]
      exact hn
    rw [List.singleton_append, decodeNat?, if_pos hlt, if_pos rfl, htoNat]
  · -- A marker that is needed announces no more bytes than the width has.
    have hbytes (v : Width) (hv : ¬ n < v.bound) : v.bound < w.bound := by omega
    split
    · rename_i hn
      exact decodeNat?_marker hn (by cases w <;> decide) (by decide) rest
    · rename_i h₂
      split
      · rename_i hn
        refine decodeNat?_marker hn ?_ (by decide) rest
        have := hbytes _ h₂
        cases w <;> revert this <;> decide
      · rename_i h₄
        split
        · rename_i hn
          refine decodeNat?_marker hn ?_ (by decide) rest
          have := hbytes _ h₄
          cases w <;> revert this <;> decide
        · rename_i h₈
          have hlt := hbytes _ h₈
          cases w with
          | sixteen => exact decodeNat?_marker h (by decide) (by decide) rest
          | two | four | eight => exact absurd hlt (by decide)

theorem unfold_fold (i : Int) : unfold (fold i) = i := by
  rw [unfold, fold]
  split <;> split <;> omega

theorem fold_lt {b : Nat} {i : Int} (h : -(b : Int) ≤ 2 * i ∧ 2 * i < b) : fold i < b := by
  rw [fold]
  split <;> omega

/-! ## Texts -/

theorem toList_loop (b : ByteArray) (i : Nat) (r : List UInt8) :
    ByteArray.toList.loop b i r = r.reverse ++ b.data.toList.drop i := by
  induction i, r using ByteArray.toList.loop.induct b with
  | case1 i r hlt ih =>
    have hi : i < b.data.toList.length := hlt
    have hget : b.get! i = b.data.toList[i] := getElem!_pos b.data i hlt
    rw [ByteArray.toList.loop, if_pos hlt, ih, List.drop_eq_getElem_cons hi, hget,
      List.reverse_cons, List.append_assoc, List.singleton_append]
  | case2 i r hge =>
    have hi : b.data.toList.length ≤ i := Nat.le_of_not_lt hge
    rw [ByteArray.toList.loop, if_neg hge, List.drop_eq_nil_of_le hi, List.append_nil]

theorem textBytes_eq (t : String) : textBytes t = t.toByteArray.data.toList := by
  rw [textBytes, ByteArray.toList, toList_loop]
  rfl

theorem ofTextBytes?_textBytes (t : String) : ofTextBytes? (textBytes t) = some t := by
  rw [textBytes_eq, ofTextBytes?, Array.toArray_toList, String.fromUTF8?,
    dif_pos t.isValidUTF8]
  rfl

theorem textBytes_singleton (c : Char) :
    textBytes (String.singleton c) = String.utf8EncodeChar c := by
  rw [textBytes_eq, String.toByteArray_singleton, List.utf8Encode_singleton,
    List.toList_data_toByteArray]

theorem charWidth?_ofNat {n : Nat} (h : n < 256) : charWidth? (UInt8.ofNat n) =
    if n < 0x80 then some 1 else if n < 0xc2 then none else if n < 0xe0 then some 2
    else if n < 0xf0 then some 3 else if n < 0xf5 then some 4 else none := by
  have hlt (m : Nat) (hm : m < 256) : UInt8.ofNat n < UInt8.ofNat m ↔ n < m := by
    rw [UInt8.lt_iff_toNat_lt, UInt8.toNat_ofNat', UInt8.toNat_ofNat', Nat.mod_eq_of_lt h,
      Nat.mod_eq_of_lt hm]
  have h₁ := hlt 0x80 (by decide)
  have h₂ := hlt 0xc2 (by decide)
  have h₃ := hlt 0xe0 (by decide)
  have h₄ := hlt 0xf0 (by decide)
  have h₅ := hlt 0xf5 (by decide)
  rw [charWidth?]
  simp only [← h₁, ← h₂, ← h₃, ← h₄, ← h₅]
  rfl

/-- The first byte of a character tells how many there are. -/
theorem charWidth?_utf8EncodeChar (c : Char) :
    ∃ b bs, String.utf8EncodeChar c = b :: bs ∧ charWidth? b = some (bs.length + 1) := by
  have hc : c.val.toNat < 0x110000 := by
    rcases c.valid with h | ⟨-, h⟩
    · exact Nat.lt_trans h (by decide)
    · exact h
  rw [String.utf8EncodeChar]
  split
  · refine ⟨_, _, rfl, ?_⟩
    rw [charWidth?_ofNat (by omega), if_pos (by omega)]
    rfl
  · split
    · refine ⟨_, _, rfl, ?_⟩
      rw [charWidth?_ofNat (by omega), if_neg (by omega), if_neg (by omega), if_pos (by omega)]
      rfl
    · split
      · refine ⟨_, _, rfl, ?_⟩
        rw [charWidth?_ofNat (by omega), if_neg (by omega), if_neg (by omega), if_neg (by omega),
          if_pos (by omega)]
        rfl
      · refine ⟨_, _, rfl, ?_⟩
        rw [charWidth?_ofNat (by omega), if_neg (by omega), if_neg (by omega), if_neg (by omega),
          if_neg (by omega), if_pos (by omega)]
        rfl

theorem decodeChar?_textBytes (c : Char) (rest : Bytes) :
    decodeChar? (textBytes (String.singleton c) ++ rest) = some (c, rest) := by
  obtain ⟨b, bs, hbytes, hwidth⟩ := charWidth?_utf8EncodeChar c
  have htext := ofTextBytes?_textBytes (String.singleton c)
  rw [textBytes_singleton, hbytes] at htext ⊢
  have htake : take? (bs.length + 1) (b :: bs ++ rest) = some (b :: bs, rest) :=
    take?_append (List.length_cons ..) rest
  have hhead : (b :: bs ++ rest).head? = some b := rfl
  simp only [decodeChar?, Option.bind_eq_bind, hhead, Option.bind_some, hwidth, htake, htext,
    String.toList_singleton]

end Checkpoint

/-! ## Values -/

namespace Shape

open Checkpoint

theorem decodeText?_append {t : String} (h : (textBytes t).length < Width.eight.bound)
    (rest : Bytes) :
    decodeText? (encodeNat (textBytes t).length ++ textBytes t ++ rest) = some (t, rest) := by
  rw [List.append_assoc]
  simp only [decodeText?, decodeNat?_encodeNat h, Option.bind_eq_bind, Option.bind_some,
    take?_append rfl, ofTextBytes?_textBytes]

section

variable {α : Type} {read : Bytes → Option (α × Bytes)} {write : α → Bytes} {as : List α}

theorem decodeMany_flatMap (h : ∀ a ∈ as, ∀ rest, read (write a ++ rest) = some (a, rest))
    (rest : Bytes) : decodeMany read as.length (as.flatMap write ++ rest) = some (as, rest) := by
  induction as with
  | nil => rfl
  | cons a as ih =>
    have hrest := ih fun b hb ↦ h b (List.mem_cons_of_mem a hb)
    rw [List.flatMap_cons, List.append_assoc, List.length_cons]
    simp only [decodeMany, h a List.mem_cons_self, hrest, Option.bind_eq_bind, Option.bind_some]

theorem decodeCounted_append (h : ∀ a ∈ as, ∀ rest, read (write a ++ rest) = some (a, rest))
    (hlength : as.length < Width.eight.bound) (rest : Bytes) :
    decodeCounted read (encodeNat as.length ++ as.flatMap write ++ rest) = some (as, rest) := by
  rw [List.append_assoc]
  simp only [decodeCounted, decodeNat?_encodeNat hlength, Option.bind_eq_bind, Option.bind_some,
    decodeMany_flatMap h]

end

/-- The lowest byte of a small signed number tells its sign. -/
theorem signedByte_ofNat {i : Int} (h : -128 ≤ i ∧ i < 128) :
    let b := UInt8.ofNat (i % 256).toNat
    (if b < 128 then (b.toNat : Int) else (b.toNat : Int) - 256) = i := by
  have htoNat : (UInt8.ofNat (i % 256).toNat).toNat = (i % 256).toNat := by
    rw [UInt8.toNat_ofNat', Nat.mod_eq_of_lt (by omega)]
  have hlt : UInt8.ofNat (i % 256).toNat < 128 ↔ (i % 256).toNat < 128 := by
    rw [UInt8.lt_iff_toNat_lt, htoNat]
    rfl
  simp only [hlt, htoNat]
  split <;> omega

/-- Nothing in a value is longer than a number of 64 bits can tell. -/
def Fits : (s : Shape) → s.Value → Prop
  | text, t => (textBytes t).length < Width.eight.bound
  | list s, vs => vs.length < Width.eight.bound ∧ ∀ v ∈ vs, s.Fits v
  | option s, o => ∀ v ∈ o, s.Fits v
  | pair s t, v => s.Fits v.1 ∧ t.Fits v.2
  | map s, m =>
    m.size < Width.eight.bound ∧
      ∀ e ∈ m.toList, (textBytes e.1).length < Width.eight.bound ∧ s.Fits e.2
  | bool, _ | byte, _ | unsigned _, _ | signedByte, _ | signed _, _ | char, _ | unit, _
  | choice _, _ => True

/-- A value is read as it was written, whatever follows it. -/
theorem decode?_encode (s : Shape) {v : s.Value} (h : s.Fits v) (rest : Bytes) :
    s.decode? (s.encode v ++ rest) = some (v, rest) := by
  induction s generalizing rest with
  | bool => cases v <;> rfl
  | byte => rfl
  | unsigned w =>
    obtain ⟨n, hn⟩ := v
    simp only [encode, decode?, decodeNat?_encodeNat hn, Option.bind_eq_bind, Option.bind_some,
      dif_pos hn]
  | signedByte =>
    obtain ⟨i, hi⟩ := v
    have hread := signedByte_ofNat hi
    dsimp only at hread
    simp only [encode, List.singleton_append, decode?, hread, dif_pos hi]
  | signed w =>
    obtain ⟨i, hi⟩ := v
    simp only [encode, decode?, decodeNat?_encodeNat (fold_lt hi), Option.bind_eq_bind,
      Option.bind_some, unfold_fold, dif_pos hi]
  | char => exact decodeChar?_textBytes v rest
  | text => exact decodeText?_append h rest
  | unit => rfl
  | list s ih => exact decodeCounted_append (fun v hv rest ↦ ih (h.2 v hv) rest) h.1 rest
  | option s ih =>
    cases v with
    | none => rfl
    | some v =>
      have hv := ih (h v rfl) rest
      simp only [encode, List.cons_append, decode?, hv, Option.map_some]
  | pair s t ihs iht =>
    obtain ⟨v, w⟩ := v
    rw [encode, List.append_assoc]
    simp only [decode?, ihs h.1, iht h.2, Option.bind_eq_bind, Option.bind_some]
  | map s ih =>
    have hlength := h.1
    rw [← Std.ExtTreeMap.length_toList] at hlength
    rw [encode, decode?, ← Std.ExtTreeMap.length_toList, decodeCounted_append ?_ hlength,
      Option.map_some, SortedMap.ofList_toList]
    intro e he rest
    rw [List.append_assoc]
    simp only [decodeText?_append (h.2 e he).1, ih (h.2 e he).2, Option.bind_eq_bind,
      Option.bind_some]
  | choice n =>
    obtain ⟨i, hi⟩ := v
    simp only [encode, decode?, decodeNat?_encodeNat hi.2, Option.bind_eq_bind, Option.bind_some,
      dif_pos hi]

end Shape

/-! ## Checkpoints -/

/-- Nothing in a value is longer than a number of 64 bits can tell. -/
def Storable.Fits {α : Type} [Storable α] (a : α) : Prop := (shape α).Fits (toValue a)

namespace Checkpoint

/-- What a checker wrote down is what it reads, whatever follows it, and the rest is left over. -/
theorem read?_of_append {α : Type} [Storable α] {a : α} (h : Storable.Fits a) (rest : Bytes) :
    (Checkpoint.mk ((of a).bytes ++ rest)).read? = some a ∧
      (Storable.shape α).decode? ((of a).bytes ++ rest) = some (Storable.toValue a, rest) := by
  have hread := Shape.decode?_encode (Storable.shape α) h rest
  refine ⟨?_, hread⟩
  rw [read?, value?, of, ofValue, hread, Option.map_some, Option.map_some, Storable.ofValue_toValue]

theorem length_textBytes (t : String) : (textBytes t).length = t.utf8ByteSize := by
  rw [textBytes_eq, Array.length_toList]
  rfl

/-- Settings and a scope with a name that is not ASCII, followed by bytes that could be another
value. -/
theorem read?_of_append_settings :
    (Checkpoint.mk ((of (Settings.withReuse .trivial, [some (Scope.mk ⟨"main/ü"⟩ "λ"), none])).bytes
      ++ [251, 0])).read? =
        some (Settings.withReuse .trivial, [some (Scope.mk ⟨"main/ü"⟩ "λ"), none]) := by
  refine (read?_of_append ?_ [251, 0]).1
  have hscope : Storable.Fits (Scope.mk ⟨"main/ü"⟩ "λ") := by
    constructor
    all_goals
      change (textBytes _).length < _
      rw [length_textBytes]
      decide
  refine ⟨⟨trivial, trivial⟩, by decide, ?_⟩
  intro o ho v hv
  rcases List.mem_cons.1 ho with rfl | ho
  · rw [← Option.some.inj hv]
    exact hscope
  · rw [List.mem_singleton.1 ho] at hv
    cases hv

end Checkpoint

end ScopeGraphs
