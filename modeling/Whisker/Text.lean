/-!
# Texts and their bytes

The characters that count as blank are those with the Unicode property White_Space; a text is trimmed of them and cut at
separators. In UTF-8 positions count bytes, and a text can be cut only where a character starts or at its end. Tests
that only characters of one byte pass find these characters among the bytes, so behind such characters a scan of the
bytes sees what a scan of the characters sees.
-/

namespace Whisker.Text

def isBlank (c : Char) : Bool :=
  let n := c.toNat
  (9 ≤ n && n ≤ 13) || n = 0x20 || n = 0x85 || n = 0xA0 || n = 0x1680 || (0x2000 ≤ n && n ≤ 0x200A)
    || n = 0x2028 || n = 0x2029 || n = 0x202F || n = 0x205F || n = 0x3000

def trimStart (cs : List Char) : List Char := cs.dropWhile isBlank

def trim (cs : List Char) : List Char := (trimStart (trimStart cs).reverse).reverse

/-- The pieces between separators; there is one more than there are separators. -/
def split (separator : Char) : List Char → List (List Char)
  | [] => [[]]
  | c :: cs =>
    if c = separator then [] :: split separator cs
    else
      match split separator cs with
      | [] => [[c]]
      | piece :: pieces => (c :: piece) :: pieces

/-- What follows a given beginning. -/
def afterStart? (start cs : List Char) : Option (List Char) :=
  if start.isPrefixOf cs then some (cs.drop start.length) else none

def bytes (cs : List Char) : List UInt8 := cs.flatMap String.utf8EncodeChar

/-- The two parts of a text around a position; `none` inside a character and behind the end. -/
def cut? (i : Nat) : List Char → Option (List Char × List Char)
  | [] => if i = 0 then some ([], []) else none
  | c :: cs =>
    if i = 0 then some ([], c :: cs)
    else if c.utf8Size ≤ i then (cut? (i - c.utf8Size) cs).map fun (before, after) => (c :: before, after)
    else none

/-- Whether a byte stands at a position and passes a test. -/
def testAt (test : Char → Bool) (bs : List UInt8) (i : Nat) : Bool := bs[i]?.any fun b => test (Char.ofUInt8 b)

/-- How many bytes in a row pass a test; `none` behind the end. -/
def runAt? (test : Char → Bool) (bs : List UInt8) (i : Nat) : Option Nat :=
  if i ≤ bs.length then some ((bs.drop i).takeWhile fun b => test (Char.ofUInt8 b)).length else none

@[simp] theorem bytes_nil : bytes [] = [] := rfl

@[simp] theorem bytes_cons (c : Char) (cs : List Char) : bytes (c :: cs) = String.utf8EncodeChar c ++ bytes cs := rfl

@[simp] theorem bytes_append (cs ds : List Char) : bytes (cs ++ ds) = bytes cs ++ bytes ds := List.flatMap_append

/-- All characters take one byte. -/
def Narrow (cs : List Char) : Prop := ∀ c ∈ cs, c.utf8Size = 1

theorem narrow_nil : Narrow [] := fun _ hc => nomatch hc

theorem narrow_cons {c : Char} {cs : List Char} : Narrow (c :: cs) ↔ c.utf8Size = 1 ∧ Narrow cs := List.forall_mem_cons

theorem narrow_append {cs ds : List Char} : Narrow (cs ++ ds) ↔ Narrow cs ∧ Narrow ds := List.forall_mem_append

theorem Narrow.length_bytes {cs : List Char} (h : Narrow cs) : (bytes cs).length = cs.length := by
  induction cs with
  | nil => rfl
  | cons c cs ih =>
    obtain ⟨hc, hcs⟩ := narrow_cons.1 h
    rw [bytes_cons, List.length_append, String.length_utf8EncodeChar, hc, ih hcs, List.length_cons, Nat.add_comm]

/-- Behind narrow characters positions of bytes are positions of characters. -/
theorem Narrow.drop_bytes {cs : List Char} (h : Narrow cs) (ds : List Char) :
    (bytes (cs ++ ds)).drop cs.length = bytes ds := by
  rw [bytes_append, List.drop_append_of_le_length (Nat.le_of_eq h.length_bytes.symm), ← h.length_bytes,
    List.drop_length, List.nil_append]

theorem Narrow.length_le {cs : List Char} (h : Narrow cs) (ds : List Char) : cs.length ≤ (bytes (cs ++ ds)).length := by
  rw [bytes_append, List.length_append, h.length_bytes]
  exact Nat.le_add_right _ _

theorem Narrow.cut?_eq {cs : List Char} (h : Narrow cs) (ds : List Char) :
    cut? cs.length (cs ++ ds) = some (cs, ds) := by
  induction cs with
  | nil => cases ds <;> rfl
  | cons c cs ih =>
    obtain ⟨hc, hcs⟩ := narrow_cons.1 h
    rw [List.cons_append, List.length_cons, cut?, if_neg (Nat.succ_ne_zero _), hc, if_pos (Nat.le_add_left _ _),
      Nat.add_sub_cancel, ih hcs]
    rfl

/-- A narrow character is its byte. -/
theorem ofUInt8_toUInt8 {c : Char} (hc : c.utf8Size = 1) : Char.ofUInt8 c.val.toUInt8 = c := by
  have hle : c.val.toNat ≤ 127 := UInt32.le_iff_toNat_le.1 (Char.utf8Size_eq_one_iff.1 hc)
  apply Char.ext
  apply UInt32.toNat_inj.1
  change c.val.toUInt8.toUInt32.toNat = c.val.toNat
  rw [UInt8.toNat_toUInt32, UInt32.toNat_toUInt8]
  omega

/-- No other character starts with the byte of a narrow one. -/
theorem exists_leadByte {c : Char} (hc : c.utf8Size ≠ 1) :
    ∃ b bs, String.utf8EncodeChar c = b :: bs ∧ (Char.ofUInt8 b).utf8Size ≠ 1 := by
  have hlarge : ¬c.val.toNat ≤ 127 := fun hle => hc (Char.utf8Size_eq_one_iff.2 (UInt32.le_iff_toNat_le.2 hle))
  have hwide {n : Nat} (hlow : 128 ≤ n) (hhigh : n < 256) : (Char.ofUInt8 (UInt8.ofNat n)).utf8Size ≠ 1 := by
    intro hone
    have hle : (UInt8.ofNat n).toUInt32.toNat ≤ 127 := UInt32.le_iff_toNat_le.1 (Char.utf8Size_eq_one_iff.1 hone)
    rw [UInt8.toNat_toUInt32, UInt8.toNat_ofNat'] at hle
    omega
  rw [String.utf8EncodeChar.eq_1, if_neg hlarge]
  split
  · exact ⟨_, _, rfl, hwide (by omega) (by omega)⟩
  · split
    · exact ⟨_, _, rfl, hwide (by omega) (by omega)⟩
    · exact ⟨_, _, rfl, hwide (by omega) (by omega)⟩

variable {test : Char → Bool}

/-- A test that only narrow characters pass. -/
def IsNarrow (test : Char → Bool) : Prop := ∀ c, test c = true → c.utf8Size = 1

theorem IsNarrow.length_takeWhile (h : IsNarrow test) (cs : List Char) :
    ((bytes cs).takeWhile fun b => test (Char.ofUInt8 b)).length = (cs.takeWhile test).length := by
  induction cs with
  | nil => rfl
  | cons c cs ih =>
    by_cases hc : c.utf8Size = 1
    · rw [bytes_cons, String.utf8EncodeChar_eq_singleton hc, List.singleton_append, List.takeWhile_cons,
        ofUInt8_toUInt8 hc, List.takeWhile_cons]
      split
      · rw [List.length_cons, ih, List.length_cons]
      · rfl
    · obtain ⟨b, bs, hencode, hb⟩ := exists_leadByte hc
      rw [bytes_cons, hencode, List.cons_append, List.takeWhile_cons, if_neg fun htest => hb (h _ htest),
        List.takeWhile_cons, if_neg fun htest => hc (h _ htest)]
      rfl

theorem IsNarrow.head?_bytes (h : IsNarrow test) (cs : List Char) :
    ((bytes cs).head?.any fun b => test (Char.ofUInt8 b)) = cs.head?.any test := by
  cases cs with
  | nil => rfl
  | cons c cs =>
    by_cases hc : c.utf8Size = 1
    · rw [bytes_cons, String.utf8EncodeChar_eq_singleton hc]
      exact congrArg test (ofUInt8_toUInt8 hc)
    · obtain ⟨b, bs, hencode, hb⟩ := exists_leadByte hc
      rw [bytes_cons, hencode]
      exact (Bool.eq_false_iff.2 fun htest => hb (h _ htest)).trans (Bool.eq_false_iff.2 fun htest => hc (h _ htest)).symm

/-- Behind narrow characters a test of the byte is one of the character. -/
theorem Narrow.testAt_eq {before : List Char} (hbefore : Narrow before) (h : IsNarrow test) (cs : List Char) :
    testAt test (bytes (before ++ cs)) before.length = cs.head?.any test := by
  rw [testAt, ← List.head?_drop, hbefore.drop_bytes, h.head?_bytes]

theorem Narrow.runAt?_eq {before : List Char} (hbefore : Narrow before) (h : IsNarrow test) (cs : List Char) :
    runAt? test (bytes (before ++ cs)) before.length = some (cs.takeWhile test).length := by
  rw [runAt?, if_pos (hbefore.length_le cs), hbefore.drop_bytes, h.length_takeWhile]

end Whisker.Text
