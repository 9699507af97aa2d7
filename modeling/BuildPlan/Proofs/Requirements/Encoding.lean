import BuildPlan.Requirements
import Mathlib.Algebra.Group.Nat.Defs
import Mathlib.Data.List.Flatten

/-!
# BuildPlan.Proofs.Requirements.Encoding

What the bytes that are digested say about requirements. Every text stands after the number
of its bytes and every list after the number of its texts, each number in eight bytes. So it
can be told from the bytes where a text or a list ends, whatever the texts contain and
whatever follows, and requirements whose bytes agree are spelled alike.
-/

namespace BuildPlan

namespace Digest

/-! ### Numbers -/

theorem length_littleEndian (count n : Nat) : (littleEndian count n).length = count := by
  induction count generalizing n with
  | zero => rfl
  | succ count ih => rw [littleEndian, List.length_cons, ih]

theorem littleEndian_inj {count m n : Nat} (hm : m < 256 ^ count) (hn : n < 256 ^ count)
    (h : littleEndian count m = littleEndian count n) : m = n := by
  induction count generalizing m n with
  | zero => omega
  | succ count ih =>
      rw [littleEndian, littleEndian, List.cons.injEq] at h
      rw [Nat.pow_succ] at hm hn
      have hlow : m % 256 = n % 256 := by
        simpa using congrArg UInt8.toNat h.1
      have hhigh : m / 256 = n / 256 :=
        ih (Nat.div_lt_of_lt_mul (by omega)) (Nat.div_lt_of_lt_mul (by omega)) h.2
      omega

/-! ### Encodings that show where they end -/

section SelfDelimiting

variable {α : Type} {good : α → Prop} {encode : α → List UInt8}

/-- Whatever follows the bytes of an item, the item and what follows can be read off. -/
def SelfDelimiting (good : α → Prop) (encode : α → List UInt8) : Prop :=
  ∀ a b rest rest', good a → good b → encode a ++ rest = encode b ++ rest' → a = b ∧ rest = rest'

theorem selfDelimiting_byte : SelfDelimiting (fun _ => True) fun byte : UInt8 => [byte] := by
  intro a b rest rest' _ _ h
  rwa [List.singleton_append, List.singleton_append, List.cons.injEq] at h

theorem selfDelimiting_littleEndian64 : SelfDelimiting (· < 2 ^ 64) littleEndian64 := by
  intro m n rest rest' hm hn h
  obtain ⟨hnumber, hrest⟩ := List.append_inj h (by simp only [littleEndian64, length_littleEndian])
  exact ⟨littleEndian_inj hm hn hnumber, hrest⟩

/-- A known number of items, one after the other. -/
theorem SelfDelimiting.flatMap (h : SelfDelimiting good encode) (count : Nat) :
    SelfDelimiting (fun items : List α => items.length = count ∧ ∀ a ∈ items, good a)
      (List.flatMap encode) := by
  intro as bs rest rest' has hbs heq
  obtain ⟨hlen, has⟩ := has
  obtain ⟨hlen', hbs⟩ := hbs
  induction as generalizing bs count with
  | nil =>
      subst hlen
      obtain rfl := List.eq_nil_of_length_eq_zero hlen'
      exact ⟨rfl, heq⟩
  | cons a as ih =>
      subst hlen
      obtain ⟨b, bs, rfl⟩ := List.exists_cons_of_length_eq_add_one hlen'
      rw [List.forall_mem_cons] at has hbs
      rw [List.flatMap_cons, List.flatMap_cons, List.append_assoc, List.append_assoc] at heq
      obtain ⟨rfl, hitems⟩ := h a b _ _ has.1 hbs.1 heq
      obtain ⟨rfl, hrest⟩ := ih as.length bs hitems rfl has.2 (Nat.succ.inj hlen') hbs.2
      exact ⟨rfl, hrest⟩

/-- Items after their number. -/
theorem SelfDelimiting.counted (h : SelfDelimiting good encode) :
    SelfDelimiting (fun items : List α => items.length < 2 ^ 64 ∧ ∀ a ∈ items, good a)
      fun items => littleEndian64 items.length ++ items.flatMap encode := by
  intro as bs rest rest' has hbs heq
  rw [List.append_assoc, List.append_assoc] at heq
  obtain ⟨hlen, heq⟩ := selfDelimiting_littleEndian64 _ _ _ _ has.1 hbs.1 heq
  exact h.flatMap bs.length as bs rest rest' ⟨hlen, has.2⟩ ⟨rfl, hbs.2⟩ heq

end SelfDelimiting

/-! ### Bytes of texts -/

/-- The bytes that are left are put behind those read, which are kept in reverse. -/
theorem loop_of_drop_eq {bytes : ByteArray} {start : Nat} {left : List UInt8}
    (h : bytes.data.toList.drop start = left) (read : List UInt8) :
    ByteArray.toList.loop bytes start read = read.reverse ++ left := by
  induction left generalizing start read with
  | nil =>
      have hend : bytes.size ≤ start := List.drop_eq_nil_iff.mp h
      rw [ByteArray.toList.loop, if_neg (Nat.not_lt.mpr hend), List.append_nil]
  | cons byte left ih =>
      have hstart : start < bytes.size := by
        refine Nat.lt_of_not_le fun hend => ?_
        rw [List.drop_eq_nil_of_le hend] at h
        cases h
      rw [List.drop_eq_getElem_cons hstart, List.cons.injEq] at h
      have hbyte : bytes.get! start = byte := by
        rw [← h.1]
        simp [ByteArray.get!, hstart]
      rw [ByteArray.toList.loop, if_pos hstart, ih h.2, hbyte, List.reverse_cons,
        List.append_assoc, List.singleton_append]

theorem toList_eq_toList_data (bytes : ByteArray) : bytes.toList = bytes.data.toList :=
  loop_of_drop_eq (List.drop_zero ..) []

theorem length_toList_toUTF8 (text : String) : text.toUTF8.toList.length = text.utf8ByteSize := by
  rw [toList_eq_toList_data, Array.length_toList]
  rfl

theorem toList_toUTF8_inj {first second : String} :
    first.toUTF8.toList = second.toUTF8.toList ↔ first = second := by
  rw [toList_eq_toList_data, toList_eq_toList_data, Array.toList_inj]
  refine ⟨fun h => String.toByteArray_inj.mp (ByteArray.ext h), fun h => by rw [h]⟩

/-- Two messages that have one digest. -/
def Collide (message other : List UInt8) : Prop := message ≠ other ∧ sha256 message = sha256 other

end Digest

namespace EffectiveRequirements

open Digest

variable {reqs other : EffectiveRequirements}

theorem selfDelimiting_encodeText :
    SelfDelimiting (fun text : String => text.utf8ByteSize < 2 ^ 64) encodeText := by
  intro first second rest rest' hfirst hsecond h
  have hbytes := selfDelimiting_byte.counted first.toUTF8.toList second.toUTF8.toList rest rest'
    ⟨by rwa [length_toList_toUTF8], fun _ _ => trivial⟩
    ⟨by rwa [length_toList_toUTF8], fun _ _ => trivial⟩
  simp only [List.flatMap_singleton', toList_toUTF8_inj] at hbytes
  exact hbytes h

theorem selfDelimiting_encodeList :
    SelfDelimiting
      (fun texts : List String =>
        texts.length < 2 ^ 64 ∧ ∀ text ∈ texts, text.utf8ByteSize < 2 ^ 64)
      encodeList :=
  selfDelimiting_encodeText.counted

/-- The numbers of texts and of their bytes can be written in eight bytes. -/
def Fits (reqs : EffectiveRequirements) : Prop :=
  ∀ texts ∈ reqs.fields, texts.length < 2 ^ 64 ∧ ∀ text ∈ texts, text.utf8ByteSize < 2 ^ 64

/-- The six lists are the same, paths being compared by how they are spelled. -/
structure SpelledAlike (reqs other : EffectiveRequirements) : Prop where
  includes : reqs.includes.map Path.spelling = other.includes.map Path.spelling
  defines : reqs.defines = other.defines
  compileFlags : reqs.compileFlags = other.compileFlags
  linkFlags : reqs.linkFlags = other.linkFlags
  linkLibs : reqs.linkLibs = other.linkLibs
  linkDirs : reqs.linkDirs.map Path.spelling = other.linkDirs.map Path.spelling

theorem fields_eq_iff : reqs.fields = other.fields ↔ reqs.SpelledAlike other := by
  constructor
  · intro h
    simp only [fields, List.cons.injEq] at h
    obtain ⟨hincludes, hdefines, hcompileFlags, hlinkFlags, hlinkLibs, hlinkDirs, -⟩ := h
    exact ⟨hincludes, hdefines, hcompileFlags, hlinkFlags, hlinkLibs, hlinkDirs⟩
  · intro h
    rw [fields, h.includes, h.defines, h.compileFlags, h.linkFlags, h.linkLibs, h.linkDirs, fields]

theorem fields_eq_of_encode_eq (h : reqs.Fits) (h' : other.Fits)
    (heq : reqs.encode = other.encode) : reqs.fields = other.fields := by
  have hread :=
    selfDelimiting_encodeList.flatMap 6 reqs.fields other.fields [] [] ⟨rfl, h⟩ ⟨rfl, h'⟩
  rw [List.append_nil, List.append_nil] at hread
  exact (hread heq).1

/-- The bytes that are digested agree exactly if the six lists are spelled alike. So the digests
do as well, unless the digest itself has the bytes of both collide. -/
theorem encode_eq_encode_iff (h : reqs.Fits) (h' : other.Fits) :
    (reqs.encode = other.encode ↔ reqs.SpelledAlike other) ∧
      (reqs.digest = other.digest ↔
        reqs.SpelledAlike other ∨ Digest.Collide reqs.encode other.encode) := by
  have hencode : reqs.encode = other.encode ↔ reqs.SpelledAlike other := by
    rw [← fields_eq_iff]
    exact ⟨fields_eq_of_encode_eq h h', fun hfields => by rw [encode, hfields, encode]⟩
  refine ⟨hencode, ?_⟩
  rw [← hencode, Collide, digest, digest]
  by_cases heq : reqs.encode = other.encode
  · simp [heq]
  · simp [heq]

/-- A definition that contains what stands before another one. -/
def oneDefine : EffectiveRequirements :=
  { defines := ["a\x01\x00\x00\x00\x00\x00\x00\x00b", ""] }

def twoDefines : EffectiveRequirements := { defines := ["a", "b"], compileFlags := [""] }

theorem encode_ne_encode_twoDefines :
    oneDefine.Fits ∧ twoDefines.Fits ∧ oneDefine.encode ≠ twoDefines.encode := by
  have hone : oneDefine.Fits := by
    simp only [Fits, fields, oneDefine]
    decide
  have htwo : twoDefines.Fits := by
    simp only [Fits, fields, twoDefines]
    decide
  refine ⟨hone, htwo, fun heq => ?_⟩
  have hdefines := ((encode_eq_encode_iff hone htwo).1.mp heq).defines
  exact absurd hdefines (by decide)

end EffectiveRequirements

end BuildPlan
