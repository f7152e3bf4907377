import Forge.Base.Error
import Forge.Lib.LittleEndian
import Forge.Lib.FoldInjective
import Forge.Lib.Lexicographic

/-!
# Bytes, checksums and digests

The primitives of `checked.cpp`: little-endian writers and readers, `crc32c` and `digest_bytes`.
The writers append `LittleEndian.bytes`, the readers return the `LittleEndian.value` of the bytes at
the offset. `crc32c_ne_of_one_change` says that the checksum notices any single changed byte, and
`crc32c_ne_of_burst` that it notices every change within four bytes: the register is linear, so such a
window is shifted in as one word. A digest word is mixed by reversible steps, so one changed byte changes
all four (`digestBytes_words_ne`); printed in hexadecimal, digests keep the order of their words.
-/

namespace Forge

/-! ## Definitions -/

def appendU16Le (out : Bytes) (value : UInt16) : Bytes :=
  out ++ [(value &&& 0xff).toUInt8] ++ [((value >>> 8) &&& 0xff).toUInt8]

def appendU32Le (out : Bytes) (value : UInt32) : Bytes :=
  (List.range 4).foldl (fun out i => out ++ [((value >>> UInt32.ofNat (8 * i)) &&& 0xff).toUInt8]) out

def appendU64Le (out : Bytes) (value : UInt64) : Bytes :=
  (List.range 8).foldl (fun out i => out ++ [((value >>> UInt64.ofNat (8 * i)) &&& 0xff).toUInt8]) out

/-- The error of a reader that finds fewer than its width of bytes at `offset`. -/
def truncated (message : Str) (offset : Nat) : Status :=
  { Status.error .format "codec" message with offset }

def readU16Le (bytes : Bytes) (offset : Nat) : Result UInt16 :=
  if offset > bytes.length ∨ bytes.length - offset < 2 then
    .error (truncated "truncated u16" offset)
  else
    .ok ((bytes.getD offset 0).toUInt16 ||| (bytes.getD (offset + 1) 0).toUInt16 <<< 8)

def readU32Le (bytes : Bytes) (offset : Nat) : Result UInt32 :=
  if offset > bytes.length ∨ bytes.length - offset < 4 then
    .error (truncated "truncated u32" offset)
  else
    .ok ((List.range 4).foldl
      (fun value i => value ||| (bytes.getD (offset + i) 0).toUInt32 <<< UInt32.ofNat (8 * i)) 0)

def readU64Le (bytes : Bytes) (offset : Nat) : Result UInt64 :=
  if offset > bytes.length ∨ bytes.length - offset < 8 then
    .error (truncated "truncated u64" offset)
  else
    .ok ((List.range 8).foldl
      (fun value i => value ||| (bytes.getD (offset + i) 0).toUInt64 <<< UInt64.ofNat (8 * i)) 0)

/-- One turn of the inner loop of `crc32c`. -/
def crc32cBit (crc : UInt32) : UInt32 :=
  let mask := 0 - (crc &&& 1)
  (crc >>> 1) ^^^ (0x82f63b78 &&& mask)

/-- One turn of the outer loop of `crc32c`. -/
def crc32cByte (crc : UInt32) (byte : Byte) : UInt32 :=
  (List.range 8).foldl (fun crc _ => crc32cBit crc) (crc ^^^ byte.toUInt32)

def crc32c (data : Bytes) : UInt32 := ~~~ data.foldl crc32cByte 0xffffffff

structure Digest256 where
  words : Vector UInt64 4 := #v[0, 0, 0, 0]
deriving DecidableEq, Repr

/-- The body of the `mix` loop of `digest_bytes`, for one word. -/
def mixWord (byte : Byte) (word : UInt64) : UInt64 :=
  let word := word ^^^ byte.toUInt64
  let word := word * 1099511628211
  word ^^^ (word >>> 32)

def Digest256.mix (digest : Digest256) (byte : Byte) : Digest256 :=
  ⟨digest.words.map (mixWord byte)⟩

def digestBytes (domain : Str) (data : Bytes) : Digest256 :=
  let digest : Digest256 :=
    ⟨#v[1469598103934665603, 1099511628211, 7809847782465536322, 1609587929392839161]⟩
  data.foldl Digest256.mix ((domain.foldl Digest256.mix digest).mix 0xff)

/-- A digit as `std::hex` prints it. -/
def hexDigit (digit : Nat) : Byte :=
  UInt8.ofNat (if digit < 10 then 48 + digit else 87 + digit)

/-- A word printed with `std::hex << std::setw(16) << std::setfill('0')`. -/
def hexWord (word : UInt64) : Str :=
  (List.range 16).map fun i => hexDigit (word.toNat / 16 ^ (15 - i) % 16)

def Digest256.hex (digest : Digest256) : Str :=
  (digest.words.toList.map hexWord).flatten

/-! ## Writers -/

theorem and_255 (n : Nat) : n &&& 255 = n % 256 := Nat.and_two_pow_sub_one_eq_mod n 8

theorem foldl_snoc_eq_append_map {α : Type} (f : Nat → α) (l : List Nat) (out : List α) :
    l.foldl (fun out i => out ++ [f i]) out = out ++ l.map f := by
  induction l generalizing out with
  | nil => simp
  | cons i l ih => simp [ih]

theorem appendU16Le_eq (out : Bytes) (value : UInt16) :
    appendU16Le out value = out ++ LittleEndian.bytes 2 value.toNat := by
  have hbyte (x : UInt16) : (x &&& 0xff).toUInt8 = UInt8.ofNat x.toNat := by
    apply UInt8.toNat_inj.mp
    simp [and_255]
  simp only [appendU16Le, LittleEndian.bytes, hbyte]
  simp [Nat.shiftRight_eq_div_pow]

theorem appendU32Le_eq (out : Bytes) (value : UInt32) :
    appendU32Le out value = out ++ LittleEndian.bytes 4 value.toNat := by
  rw [appendU32Le, foldl_snoc_eq_append_map, LittleEndian.bytes_eq_map]
  congr 1
  apply List.map_congr_left
  intro i hi
  rw [List.mem_range] at hi
  apply UInt8.toNat_inj.mp
  have hshift : 8 * i % 4294967296 % 32 = 8 * i := by omega
  simp [and_255, Nat.shiftRight_eq_div_pow, hshift, pow_mul]

theorem appendU64Le_eq (out : Bytes) (value : UInt64) :
    appendU64Le out value = out ++ LittleEndian.bytes 8 value.toNat := by
  rw [appendU64Le, foldl_snoc_eq_append_map, LittleEndian.bytes_eq_map]
  congr 1
  apply List.map_congr_left
  intro i hi
  rw [List.mem_range] at hi
  apply UInt8.toNat_inj.mp
  have hshift : 8 * i % 18446744073709551616 % 64 = 8 * i := by omega
  simp [and_255, Nat.shiftRight_eq_div_pow, hshift, pow_mul]

/-! ## Readers -/

theorem shiftLeft_byte_lt (b : Byte) {n w : Nat} (h : n + 1 ≤ w) :
    b.toNat <<< (8 * n) < 2 ^ (8 * w) := by
  have hb : b.toNat < 2 ^ 8 := b.toNat_lt
  calc b.toNat <<< (8 * n) = b.toNat * 2 ^ (8 * n) := Nat.shiftLeft_eq _ _
    _ < 2 ^ 8 * 2 ^ (8 * n) := Nat.mul_lt_mul_of_pos_right hb (Nat.two_pow_pos _)
    _ = 2 ^ (8 + 8 * n) := (Nat.pow_add ..).symm
    _ ≤ 2 ^ (8 * w) := Nat.pow_le_pow_right (by norm_num) (by omega)

theorem u32_fold_toNat (b : Nat → Byte) (n : Nat) (hn : n ≤ 4) :
    ((List.range n).foldl
      (fun value i => value ||| (b i).toUInt32 <<< UInt32.ofNat (8 * i)) (0 : UInt32)).toNat =
      LittleEndian.value ((List.range n).map b) := by
  induction n with
  | zero => rfl
  | succ n ih =>
    have hshift : 8 * n % 4294967296 % 32 = 8 * n := by omega
    have hfit : (b n).toNat <<< (8 * n) < 4294967296 := shiftLeft_byte_lt (b n) hn
    rw [LittleEndian.value_map_succ, ← ih (by omega), List.range_succ, List.foldl_append]
    simp [hshift, Nat.mod_eq_of_lt hfit]

theorem u64_fold_toNat (b : Nat → Byte) (n : Nat) (hn : n ≤ 8) :
    ((List.range n).foldl
      (fun value i => value ||| (b i).toUInt64 <<< UInt64.ofNat (8 * i)) (0 : UInt64)).toNat =
      LittleEndian.value ((List.range n).map b) := by
  induction n with
  | zero => rfl
  | succ n ih =>
    have hshift : 8 * n % 18446744073709551616 % 64 = 8 * n := by omega
    have hfit : (b n).toNat <<< (8 * n) < 18446744073709551616 := shiftLeft_byte_lt (b n) hn
    rw [LittleEndian.value_map_succ, ← ih (by omega), List.range_succ, List.foldl_append]
    simp [hshift, Nat.mod_eq_of_lt hfit]

theorem map_getD_eq_take (bytes : Bytes) (offset w : Nat) (h : offset + w ≤ bytes.length) :
    (List.range w).map (fun i => bytes.getD (offset + i) 0) = (bytes.drop offset).take w := by
  apply List.ext_getElem
  · simp; omega
  · intro i h1 h2
    have hi : offset + i < bytes.length := by simp at h1; omega
    simp [hi]

theorem readU16Le_eq (bytes : Bytes) (offset : Nat) (h : offset + 2 ≤ bytes.length) :
    readU16Le bytes offset =
      .ok (UInt16.ofNat (LittleEndian.value ((bytes.drop offset).take 2))) := by
  rw [readU16Le, if_neg (by omega), ← map_getD_eq_take _ _ _ h]
  congr 1
  apply UInt16.toNat_inj.mp
  have hv : LittleEndian.value ((List.range 2).map fun i => bytes.getD (offset + i) 0) < 2 ^ 16 := by
    simpa using LittleEndian.value_lt ((List.range 2).map fun i => bytes.getD (offset + i) 0)
  have hfit : (bytes.getD (offset + 1) 0).toNat <<< 8 < 65536 :=
    shiftLeft_byte_lt (bytes.getD (offset + 1) 0) (le_refl 2)
  rw [UInt16.toNat_ofNat', Nat.mod_eq_of_lt hv, LittleEndian.value_map_succ,
    LittleEndian.value_map_succ]
  simp [-List.getD_eq_getElem?_getD, LittleEndian.value, Nat.mod_eq_of_lt hfit]

theorem readU32Le_eq (bytes : Bytes) (offset : Nat) (h : offset + 4 ≤ bytes.length) :
    readU32Le bytes offset =
      .ok (UInt32.ofNat (LittleEndian.value ((bytes.drop offset).take 4))) := by
  rw [readU32Le, if_neg (by omega)]
  congr 1
  apply UInt32.toNat_inj.mp
  have hv := LittleEndian.value_lt ((bytes.drop offset).take 4)
  rw [List.length_take_of_le (by simp; omega)] at hv
  rw [u32_fold_toNat (fun i => bytes.getD (offset + i) 0) 4 (le_refl 4), map_getD_eq_take _ _ _ h]
  exact (Nat.mod_eq_of_lt hv).symm

theorem readU64Le_eq (bytes : Bytes) (offset : Nat) (h : offset + 8 ≤ bytes.length) :
    readU64Le bytes offset =
      .ok (UInt64.ofNat (LittleEndian.value ((bytes.drop offset).take 8))) := by
  rw [readU64Le, if_neg (by omega)]
  congr 1
  apply UInt64.toNat_inj.mp
  have hv := LittleEndian.value_lt ((bytes.drop offset).take 8)
  rw [List.length_take_of_le (by simp; omega)] at hv
  rw [u64_fold_toNat (fun i => bytes.getD (offset + i) 0) 8 (le_refl 8), map_getD_eq_take _ _ _ h]
  exact (Nat.mod_eq_of_lt hv).symm

/-! ## The checksum -/

theorem crc32cBit_toBitVec (crc : UInt32) :
    (crc32cBit crc).toBitVec =
      (crc.toBitVec >>> 1) ^^^ (if crc.toBitVec.getLsbD 0 then 0x82f63b78#32 else 0#32) := by
  have hmask : (0 - (crc &&& 1)).toBitVec =
      if crc.toBitVec.getLsbD 0 then 0xffffffff#32 else 0#32 := by
    simp only [UInt32.toBitVec_sub, UInt32.toBitVec_and]
    rw [show (1 : UInt32).toBitVec = 1#32 from rfl, BitVec.and_one_eq_setWidth_ofBool_getLsbD]
    cases crc.toBitVec.getLsbD 0 <;> rfl
  simp only [crc32cBit, UInt32.toBitVec_xor, UInt32.toBitVec_and, hmask]
  cases crc.toBitVec.getLsbD 0 <;> rfl

theorem crc32cBit_injective : Function.Injective crc32cBit := by
  -- the bit shifted out is the top bit of the result, as the polynomial has its top bit set
  intro x y h
  have hbits := congrArg UInt32.toBitVec h
  rw [crc32cBit_toBitVec, crc32cBit_toBitVec] at hbits
  have hlow : x.toBitVec.getLsbD 0 = y.toBitVec.getLsbD 0 := by
    have htop := congrArg (BitVec.getLsbD · 31) hbits
    simp only [BitVec.getLsbD_xor, BitVec.getLsbD_ushiftRight] at htop
    cases hx : x.toBitVec.getLsbD 0 <;> cases hy : y.toBitVec.getLsbD 0
    · rfl
    · rw [hx, hy] at htop
      simp at htop
    · rw [hx, hy] at htop
      simp at htop
    · rfl
  apply UInt32.toBitVec_inj.mp
  rw [hlow, BitVec.xor_left_inj] at hbits
  apply BitVec.eq_of_getLsbD_eq
  intro i hi
  cases i with
  | zero => exact hlow
  | succ i =>
    have hbit := congrArg (BitVec.getLsbD · i) hbits
    simpa [Nat.add_comm] using hbit

theorem crc32cByte_eq (crc : UInt32) (byte : Byte) :
    crc32cByte crc byte = crc32cBit^[8] (crc ^^^ byte.toUInt32) := rfl

theorem crc32cByte_state_injective (byte : Byte) :
    Function.Injective fun crc => crc32cByte crc byte := by
  intro x y h
  simp only [crc32cByte_eq] at h
  exact (UInt32.xor_left_inj _).mp (crc32cBit_injective.iterate 8 h)

theorem crc32cByte_byte_injective (crc : UInt32) : Function.Injective (crc32cByte crc) := by
  intro x y h
  simp only [crc32cByte_eq] at h
  have hxor := (UInt32.xor_right_inj _).mp (crc32cBit_injective.iterate 8 h)
  apply UInt8.toNat_inj.mp
  simpa using congrArg UInt32.toNat hxor

/-- **One changed byte changes the checksum**, whatever stands before and after it. -/
theorem crc32c_ne_of_one_change (pre post : Bytes) {a b : Byte} (hne : a ≠ b) :
    crc32c (pre ++ a :: post) ≠ crc32c (pre ++ b :: post) := by
  intro h
  refine FoldInjective.foldl_ne_of_one_change crc32cByte_state_injective crc32cByte_byte_injective
    0xffffffff pre post hne ?_
  simpa [crc32c] using h

theorem crc32cBit_xor (x y : UInt32) : crc32cBit (x ^^^ y) = crc32cBit x ^^^ crc32cBit y := by
  have hpoly : ∀ a b : Bool, (if a ^^ b then 0x82f63b78#32 else 0#32) =
      (if a then 0x82f63b78#32 else 0#32) ^^^ if b then 0x82f63b78#32 else 0#32 := by decide
  apply UInt32.toBitVec_inj.mp
  rw [UInt32.toBitVec_xor, crc32cBit_toBitVec, crc32cBit_toBitVec, crc32cBit_toBitVec,
    UInt32.toBitVec_xor, BitVec.ushiftRight_xor_distrib, BitVec.getLsbD_xor, hpoly]
  ac_rfl

theorem crc32cBit_iterate_xor (n : Nat) (x y : UInt32) :
    crc32cBit^[n] (x ^^^ y) = crc32cBit^[n] x ^^^ crc32cBit^[n] y := by
  induction n generalizing x y with
  | zero => rfl
  | succ n ih => rw [Function.iterate_succ_apply, crc32cBit_xor, ih]; rfl

theorem crc32cBit_iterate_two_pow (n value : Nat) (h : 2 ^ n * value < 2 ^ 32) :
    crc32cBit^[n] (UInt32.ofNat (2 ^ n * value)) = UInt32.ofNat value := by
  induction n with
  | zero => simp
  | succ n ih =>
    have hhalf : crc32cBit (UInt32.ofNat (2 ^ (n + 1) * value)) = UInt32.ofNat (2 ^ n * value) := by
      apply UInt32.toBitVec_inj.mp
      have hlow : (UInt32.ofNat (2 ^ (n + 1) * value)).toBitVec.getLsbD 0 = false := by
        simp [BitVec.getLsbD, pow_succ', mul_assoc]
      rw [crc32cBit_toBitVec, hlow]
      apply BitVec.eq_of_toNat_eq
      simp only [Bool.false_eq_true, if_false, BitVec.xor_zero, BitVec.toNat_ushiftRight,
        UInt32.toNat_toBitVec, UInt32.toNat_ofNat', Nat.shiftRight_one]
      rw [pow_succ', mul_assoc] at h ⊢
      omega
    rw [Function.iterate_succ_apply, hhalf]
    exact ih (by rw [pow_succ', mul_assoc] at h; omega)

theorem foldl_crc32cByte_eq (window : Bytes) (h : window.length ≤ 4) (crc : UInt32) :
    window.foldl crc32cByte crc =
      crc32cBit^[8 * window.length] (crc ^^^ UInt32.ofNat (LittleEndian.value window)) := by
  induction window generalizing crc with
  | nil => simp [LittleEndian.value]
  | cons byte rest ih =>
    have hrest : LittleEndian.value rest < 256 ^ 3 :=
      (LittleEndian.value_lt rest).trans_le (Nat.pow_le_pow_right (by omega) (Nat.le_of_succ_le_succ h))
    have hshift := crc32cBit_iterate_two_pow 8 (LittleEndian.value rest) (by omega)
    have hword : byte.toUInt32 ^^^ UInt32.ofNat (2 ^ 8 * LittleEndian.value rest) =
        UInt32.ofNat (LittleEndian.value (byte :: rest)) := by
      apply UInt32.toNat_inj.mp
      have hbyte := byte.toNat_lt
      rw [UInt32.toNat_xor, UInt32.toNat_ofNat', UInt32.toNat_ofNat', UInt8.toNat_toUInt32,
        Nat.mod_eq_of_lt (by omega : 2 ^ 8 * LittleEndian.value rest < 2 ^ 32), LittleEndian.value,
        Nat.mod_eq_of_lt (by omega)]
      have hlow := @Nat.xor_mod_two_pow byte.toNat (2 ^ 8 * LittleEndian.value rest) 8
      have hhigh := @Nat.xor_div_two_pow byte.toNat (2 ^ 8 * LittleEndian.value rest) 8
      rw [Nat.mul_mod_right, Nat.xor_zero] at hlow
      rw [Nat.mul_div_cancel_left _ (by omega), Nat.div_eq_of_lt hbyte, Nat.zero_xor] at hhigh
      omega
    rw [List.foldl_cons, ih (Nat.le_of_succ_le h), crc32cByte_eq, ← hshift, ← crc32cBit_iterate_xor,
      UInt32.xor_assoc, hword, ← Function.iterate_add_apply, List.length_cons]
    rfl

theorem foldl_crc32cByte_ne {window window' : Bytes} (hlen : window.length = window'.length)
    (hshort : window.length ≤ 4) (hne : window ≠ window') (crc : UInt32) :
    window.foldl crc32cByte crc ≠ window'.foldl crc32cByte crc := by
  intro h
  rw [foldl_crc32cByte_eq window hshort, foldl_crc32cByte_eq window' (hlen ▸ hshort), ← hlen] at h
  have hword := (UInt32.xor_right_inj _).mp (crc32cBit_injective.iterate _ h)
  have hfits : ∀ bytes : Bytes, bytes.length ≤ 4 → LittleEndian.value bytes < 2 ^ 32 :=
    fun bytes hbytes => (LittleEndian.value_lt bytes).trans_le (Nat.pow_le_pow_right (by omega) hbytes)
  have hvalue := congrArg UInt32.toNat hword
  rw [UInt32.toNat_ofNat', UInt32.toNat_ofNat', Nat.mod_eq_of_lt (hfits _ hshort),
    Nat.mod_eq_of_lt (hfits _ (hlen ▸ hshort))] at hvalue
  exact hne (LittleEndian.value_inj hlen hvalue)

theorem take_eq_and_drop_eq {x y : Bytes} {start width : Nat}
    (hsame : ∀ i, i < start ∨ start + width ≤ i → x[i]? = y[i]?) :
    x.take start = y.take start ∧ x.drop (start + width) = y.drop (start + width) := by
  constructor
  · refine List.ext_getElem? fun i => ?_
    rw [List.getElem?_take, List.getElem?_take]
    split
    · next hi => exact hsame i (.inl hi)
    · rfl
  · refine List.ext_getElem? fun i => ?_
    rw [List.getElem?_drop, List.getElem?_drop]
    exact hsame _ (.inr (by omega))

/-- **A short burst changes the checksum.** Byte strings of one length that differ, and only in a window
of four bytes, have different checksums. -/
theorem crc32c_ne_of_burst {x y : Bytes} (hlen : x.length = y.length) (start : Nat)
    (hsame : ∀ i, i < start ∨ start + 4 ≤ i → x[i]? = y[i]?) (hne : x ≠ y) : crc32c x ≠ crc32c y := by
  have hcut : ∀ bytes : Bytes, bytes = bytes.take start ++ ((bytes.drop start).take 4 ++
      bytes.drop (start + 4)) := fun bytes => by
    rw [← List.drop_drop, List.take_append_drop, List.take_append_drop]
  obtain ⟨hpre, hpost⟩ := take_eq_and_drop_eq hsame
  have hwindow : (x.drop start).take 4 ≠ (y.drop start).take 4 := fun heq =>
    hne (by rw [hcut x, hcut y, hpre, hpost, heq])
  intro h
  rw [crc32c, crc32c, hcut x, hcut y, hpre, hpost] at h
  refine FoldInjective.foldl_ne_of_window crc32cByte_state_injective 0xffffffff (y.take start)
    (y.drop (start + 4)) (foldl_crc32cByte_ne (by simp [hlen]) (by simp) hwindow) ?_
  simpa using h

/-- A burst over four bytes of six. -/
theorem crc32c_ne_of_burst_four : crc32c [1, 2, 3, 4, 5, 6] ≠ crc32c [1, 9, 3, 0, 7, 6] :=
  crc32c_ne_of_burst rfl 1 (fun i hi => by
    rcases i with _ | _ | _ | _ | _ | i
    · rfl
    · omega
    · omega
    · omega
    · omega
    · rfl) (by decide)

theorem eq_take_cons_drop (bytes : Bytes) (i : Nat) (h : i < bytes.length) :
    bytes = bytes.take i ++ bytes[i] :: bytes.drop (i + 1) := by
  rw [List.getElem_cons_drop, List.take_append_drop]

theorem crc32c_set_ne (bytes : Bytes) (i : Nat) (h : i < bytes.length) {v : Byte}
    (hv : bytes[i]? ≠ some v) (pre post : Bytes) :
    crc32c (pre ++ (bytes.set i v ++ post)) ≠ crc32c (pre ++ (bytes ++ post)) := by
  have hold := eq_take_cons_drop bytes i h
  have hne : bytes[i] ≠ v := fun heq => hv (by rw [List.getElem?_eq_getElem h, heq])
  have hchange := crc32c_ne_of_one_change (pre ++ bytes.take i) (bytes.drop (i + 1) ++ post) hne
  rw [List.set_eq_take_append_cons_drop, if_pos h]
  rw [← List.cons_append, ← List.cons_append, List.append_assoc, List.append_assoc,
    ← List.append_assoc (bytes.take i), ← hold, ← List.append_assoc (bytes.take i)] at hchange
  exact hchange.symm

/-! ## The digest -/

theorem xorShift_involutive : Function.Involutive fun word : UInt64 => word ^^^ (word >>> 32) := by
  intro word
  have hout : word >>> 32 >>> 32 = 0 := by
    apply UInt64.toBitVec_inj.mp
    rw [UInt64.toBitVec_shiftRight, UInt64.toBitVec_shiftRight]
    change word.toBitVec >>> 32 >>> 32 = 0#64
    rw [← BitVec.shiftRight_add]
    exact BitVec.ushiftRight_eq_zero (le_refl 64)
  show word ^^^ (word >>> 32) ^^^ ((word ^^^ (word >>> 32)) >>> 32) = word
  rw [UInt64.shiftRight_xor, hout, UInt64.xor_zero, UInt64.xor_assoc, UInt64.xor_self,
    UInt64.xor_zero]

theorem mul_prime_injective : Function.Injective fun word : UInt64 => word * 1099511628211 := by
  -- the prime is odd, so it has an inverse modulo `2 ^ 64`
  have hunit : (1099511628211 : UInt64) * 14886173955864302971 = 1 := by decide
  intro x y h
  have hback := congrArg (· * 14886173955864302971) h
  simpa only [UInt64.mul_assoc, hunit, UInt64.mul_one] using hback

theorem mixWord_eq_mixWord {byte byte' : Byte} {word word' : UInt64}
    (h : mixWord byte word = mixWord byte' word') : word ^^^ byte.toUInt64 = word' ^^^ byte'.toUInt64 :=
  mul_prime_injective (xorShift_involutive.injective h)

theorem mixWord_state_injective (byte : Byte) : Function.Injective (mixWord byte) := fun _ _ h =>
  (UInt64.xor_left_inj _).mp (mixWord_eq_mixWord h)

theorem mixWord_byte_injective (word : UInt64) : Function.Injective fun byte => mixWord byte word := by
  intro x y h
  have hxor := (UInt64.xor_right_inj _).mp (mixWord_eq_mixWord h)
  apply UInt8.toNat_inj.mp
  simpa using congrArg UInt64.toNat hxor

theorem getElem_foldl_mix (data : Bytes) (digest : Digest256) (j : Fin 4) :
    (data.foldl Digest256.mix digest).words[j] =
      data.foldl (fun word byte => mixWord byte word) digest.words[j] := by
  induction data generalizing digest with
  | nil => rfl
  | cons byte data ih =>
    rw [List.foldl_cons, ih, List.foldl_cons]
    simp [Digest256.mix]

/-- **One changed byte changes all four words.** -/
theorem digestBytes_words_ne (domain : Str) {x y : Bytes} (hlen : x.length = y.length)
    (h : ∃! i : Nat, x[i]? ≠ y[i]?) :
    ∀ j : Fin 4, (digestBytes domain x).words[j] ≠ (digestBytes domain y).words[j] := by
  intro j
  obtain ⟨i, hne, honly⟩ := h
  have hsame : ∀ k, k < i ∨ i + 1 ≤ k → x[k]? = y[k]? := by
    intro k hk
    by_contra hdiff
    have heq := honly k hdiff
    omega
  obtain ⟨hpre, hpost⟩ := take_eq_and_drop_eq hsame
  have hx : i < x.length := by
    by_contra hge
    exact hne (by rw [List.getElem?_eq_none (by omega), List.getElem?_eq_none (by omega)])
  have hy : i < y.length := hlen ▸ hx
  have hbyte : x[i] ≠ y[i] := by simpa [List.getElem?_eq_getElem, hx, hy] using hne
  rw [eq_take_cons_drop x i hx, eq_take_cons_drop y i hy, hpre, hpost, digestBytes, digestBytes,
    getElem_foldl_mix, getElem_foldl_mix]
  exact FoldInjective.foldl_ne_of_one_change mixWord_state_injective mixWord_byte_injective _ _ _ hbyte

/-- The letter in the middle of three. -/
theorem digestBytes_words_ne_middle :
    (digestBytes "input" [97, 98, 99]).words[3] ≠ (digestBytes "input" [97, 120, 99]).words[3] :=
  @digestBytes_words_ne "input" [97, 98, 99] [97, 120, 99] rfl ⟨1, by decide, fun i hi => by
    rcases i with _ | _ | _ | i
    · simp at hi
    · rfl
    · simp at hi
    · simp at hi⟩ 3

/-! ## Hexadecimal digests -/

theorem hexWord_eq (word : UInt64) :
    hexWord word = (Lexicographic.digits 16 16 word.toNat).map hexDigit := by
  simp [hexWord, Lexicographic.digits]

@[simp] theorem length_hexWord (word : UInt64) : (hexWord word).length = 16 := by simp [hexWord]

theorem hex_eq (digest : Digest256) : digest.hex = digest.words.toList.flatMap hexWord := by
  rw [Digest256.hex, List.flatMap_def]

@[simp] theorem length_hex (digest : Digest256) : digest.hex.length = 64 := by
  simp [hex_eq, List.length_flatMap, List.map_const']

theorem compare_hexDigit : ∀ a < 16, ∀ b < 16, compare (hexDigit a) (hexDigit b) = compare a b := by
  -- the digits stand before the letters in the character set
  decide +kernel

theorem compare_toNat (x y : UInt64) : compare x.toNat y.toNat = compare x y := by
  simp only [compare, compareOfLessAndEq, UInt64.lt_iff_toNat_lt, UInt64.toNat_inj]

theorem compare_hexWord (x y : UInt64) : compare (hexWord x) (hexWord y) = compare x y := by
  have hdigit : ∀ {n digit : Nat}, digit ∈ Lexicographic.digits 16 16 n → digit < 16 :=
    Lexicographic.lt_of_mem_digits (by omega)
  calc compare (hexWord x) (hexWord y)
      = compare (Lexicographic.digits 16 16 x.toNat) (Lexicographic.digits 16 16 y.toNat) := by
        rw [hexWord_eq, hexWord_eq]
        exact Lexicographic.compare_map fun a ha b hb => compare_hexDigit a (hdigit ha) b (hdigit hb)
    _ = compare x.toNat y.toNat := Lexicographic.compare_digits 16 16 x.toNat_lt y.toNat_lt
    _ = compare x y := compare_toNat x y

theorem compare_hex (a b : Digest256) : compare a.hex b.hex = compare a.words.toList b.words.toList := by
  rw [hex_eq, hex_eq]
  exact Lexicographic.compare_flatMap length_hexWord compare_hexWord (by simp)

theorem hex_injective : Function.Injective Digest256.hex := by
  intro x y h
  have hwords : compare x.words.toList y.words.toList = .eq := by
    rw [← compare_hex, h]
    exact Std.ReflCmp.compare_self
  cases x
  cases y
  rw [Digest256.mk.injEq]
  exact Vector.toList_inj.mp (Std.LawfulEqCmp.eq_of_compare hwords)

-- Sealed: proofs elsewhere reach the checksum and the digest only through the facts above.
attribute [irreducible] crc32c digestBytes

end Forge
