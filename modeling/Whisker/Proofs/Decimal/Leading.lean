import Whisker.Proofs.Decimal.Literal
import Whisker.Proofs.Decimal.Reading

/-!
# The longest literal

The search for the end of a number steps from one boundary of characters to the next, since all that it passes are
characters of one byte. Where it ends, the longest literal ends that the text starts with.
-/

namespace Whisker.Numeral

open Scalar (nan inf)
open Decimal (AreDigits)
open Text (Narrow IsNarrow bytes cut? testAt runAt?)

/-- The longest of the beginnings of a text that are in a language. -/
structure Longest (language : List Char → Prop) (cs p : List Char) : Prop where
  start : p <+: cs
  mem : language p
  length_le : ∀ {q : List Char}, q <+: cs → language q → q.length ≤ p.length

/-- There is one longest prefix at most. -/
theorem Longest.eq {language : List Char → Prop} {cs p q : List Char} (hp : Longest language cs p)
    (hq : Longest language cs q) : p = q := by
  have hlength := le_antisymm (hq.length_le hp.start hp.mem) (hp.length_le hq.start hq.mem)
  exact (List.prefix_of_prefix_length_le hp.start hq.start hlength.le).eq_of_length hlength

/-- Taking digits as long as they come takes the longest prefix of digits. -/
theorem longest_digits (cs : List Char) : Longest AreDigits cs (cs.takeWhile isDigit) where
  start := List.takeWhile_prefix _
  mem := List.all_eq_true.1 List.all_takeWhile
  length_le := by
    rintro q ⟨r, rfl⟩ hq
    rw [List.takeWhile_append_of_pos hq, List.length_append]
    exact Nat.le_add_right _ _

theorem isNarrow_isDigit : IsNarrow isDigit := by
  intro c hc
  rw [isDigit, Bool.and_eq_true, decide_eq_true_iff, decide_eq_true_iff] at hc
  exact Char.utf8Size_eq_one_iff.2 (UInt32.le_trans (Char.le_def.1 hc.2) (by decide))

theorem isNarrow_isSign : IsNarrow isSign := by
  intro c hc
  rw [isSign, Bool.or_eq_true, decide_eq_true_iff, decide_eq_true_iff] at hc
  rcases hc with rfl | rfl <;> decide

theorem isNarrow_isPower : IsNarrow isPower := by
  intro c hc
  rw [isPower, Bool.or_eq_true, decide_eq_true_iff, decide_eq_true_iff] at hc
  rcases hc with rfl | rfl <;> decide

theorem isNarrow_eq {x : Char} (hx : x.utf8Size = 1) : IsNarrow (· = x) := by
  intro c hc
  rw [of_decide_eq_true hc, hx]

theorem AreDigits.narrow {ds : List Char} (h : AreDigits ds) : Narrow ds := fun c hc => isNarrow_isDigit c (h c hc)

theorem IsSign.narrow {sign : List Char} {negative : Bool} (h : IsSign sign negative) : Narrow sign := by
  cases h <;> simp [Narrow] <;> decide

/-- A mantissa has digits and points only. -/
theorem IsMantissa.mem {text whole fraction : List Char} (h : IsMantissa text whole fraction) :
    ∀ c ∈ text, isDigit c = true ∨ c = '.' := by
  intro c hc
  cases h with
  | whole hds _ => exact .inl (hds c hc)
  | point hds _ hfs =>
    rcases List.mem_append.1 hc with hc | hc
    · exact .inl (hds c hc)
    · exact (List.mem_cons.1 hc).symm.imp_left (hfs c)
  | fraction hfs _ => exact (List.mem_cons.1 hc).symm.imp_left (hfs c)

theorem IsMantissa.narrow {text whole fraction : List Char} (h : IsMantissa text whole fraction) : Narrow text := by
  intro c hc
  rcases h.mem c hc with hc | rfl
  · exact isNarrow_isDigit c hc
  · decide

theorem IsPower.narrow {power : List Char} {e : ℤ} (h : IsPower power e) : Narrow power := by
  cases h with
  | none => exact Text.narrow_nil
  | some hmark hs hds _ =>
    refine Text.narrow_cons.2 ⟨?_, Text.narrow_append.2 ⟨hs.narrow, AreDigits.narrow hds⟩⟩
    rcases hmark with rfl | rfl <;> decide

theorem unsigned_iff {cs : List Char} : Unsigned cs ↔ cs.head?.any isSign = false := by
  cases cs with
  | nil => simp [Unsigned]
  | cons c cs => simp [Unsigned, isSign]

/-- A sign is taken from the start of a text, if it has one. -/
theorem exists_sign (cs : List Char) : ∃ sign rest negative, cs = sign ++ rest ∧ IsSign sign negative ∧
    (sign = [] → Unsigned rest) ∧
      ∀ {before : List Char}, Narrow before → signEnd (bytes (before ++ cs)) before.length = (before ++ sign).length := by
  have hend {before : List Char} (hbefore : Narrow before) :
      signEnd (bytes (before ++ cs)) before.length =
        if cs.head?.any isSign then before.length + 1 else before.length := by
    rw [signEnd, hbefore.testAt_eq isNarrow_isSign]
  by_cases hsign : cs.head?.any isSign = true
  · cases cs with
    | nil => cases hsign
    | cons c cs =>
      have hc : c = '+' ∨ c = '-' := by simpa [isSign] using hsign
      rcases hc with rfl | rfl
      · refine ⟨['+'], cs, false, rfl, .plus, nofun, fun hbefore => ?_⟩
        rw [hend hbefore, if_pos hsign, List.length_append]
        rfl
      · refine ⟨['-'], cs, true, rfl, .minus, nofun, fun hbefore => ?_⟩
        rw [hend hbefore, if_pos hsign, List.length_append]
        rfl
  · refine ⟨[], cs, false, rfl, .none, fun _ => unsigned_iff.2 (Bool.eq_false_iff.2 hsign), fun hbefore => ?_⟩
    rw [hend hbefore, if_neg hsign, List.append_nil]

/-- A text that is not a sign too many is split into sign and rest in one way. -/
theorem IsSign.unique {sign sign' rest rest' : List Char} {negative negative' : Bool} (hs : IsSign sign negative)
    (hs' : IsSign sign' negative') (h : sign = [] → Unsigned rest) (h' : sign' = [] → Unsigned rest')
    (heq : sign ++ rest = sign' ++ rest') : sign = sign' ∧ rest = rest' := by
  have hspan := spanSign_append hs h
  rw [heq, spanSign_append hs' h'] at hspan
  obtain ⟨-, rfl⟩ := Prod.mk.inj hspan
  exact ⟨List.append_cancel_right heq, rfl⟩

theorem takeWhile_digits {ds tail : List Char} (hds : AreDigits ds) (h : ∀ c ∈ tail.head?, isDigit c = false) :
    (ds ++ tail).takeWhile isDigit = ds ∧ (ds ++ tail).dropWhile isDigit = tail := by
  have h := spanDigits_append hds h
  rw [spanDigits, List.span_eq_takeWhile_dropWhile] at h
  exact Prod.mk.inj h

/-- A point ends the digits before it. -/
theorem takeWhile_point {ds : List Char} (hds : AreDigits ds) (cs : List Char) :
    (ds ++ '.' :: cs).takeWhile isDigit = ds ∧ (ds ++ '.' :: cs).dropWhile isDigit = '.' :: cs :=
  takeWhile_digits hds fun c hc => by cases hc; decide

/-- A mantissa at the start of a text is digits of the first run, or this run with a point and digits of the next. -/
theorem IsMantissa.of_prefix {cs q whole fraction : List Char} (h : IsMantissa q whole fraction) (hq : q <+: cs) :
    q.length ≤ (cs.takeWhile isDigit).length ∨
      ∃ tail, cs.dropWhile isDigit = '.' :: tail ∧ (cs.takeWhile isDigit ≠ [] ∨ tail.takeWhile isDigit ≠ []) ∧
        q.length ≤ (cs.takeWhile isDigit ++ '.' :: tail.takeWhile isDigit).length := by
  have hpoint {ds fs : List Char} (hds : AreDigits ds) (hfs : AreDigits fs) (hne : ds ≠ [] ∨ fs ≠ []) (r : List Char) :
      ∃ tail, (ds ++ '.' :: (fs ++ r)).dropWhile isDigit = '.' :: tail ∧
        ((ds ++ '.' :: (fs ++ r)).takeWhile isDigit ≠ [] ∨ tail.takeWhile isDigit ≠ []) ∧
          (ds ++ '.' :: fs).length ≤
            ((ds ++ '.' :: (fs ++ r)).takeWhile isDigit ++ '.' :: tail.takeWhile isDigit).length := by
    obtain ⟨htake, hdrop⟩ := takeWhile_point hds (fs ++ r)
    have hrun := (longest_digits (fs ++ r)).length_le ⟨r, rfl⟩ hfs
    refine ⟨fs ++ r, hdrop, ?_, ?_⟩
    · rw [htake]
      refine hne.imp_right fun hne hnil => hne ?_
      rw [hnil] at hrun
      exact List.eq_nil_of_length_eq_zero (Nat.le_zero.1 hrun)
    · rw [htake, List.length_append, List.length_append, List.length_cons, List.length_cons]
      omega
  obtain ⟨r, rfl⟩ := hq
  cases h with
  | whole hds _ => exact .inl ((longest_digits _).length_le ⟨r, rfl⟩ hds)
  | point hds hne hfs =>
    rw [List.append_assoc]
    exact .inr (hpoint hds hfs (.inl hne) r)
  | fraction hfs hne => exact .inr (hpoint Decimal.areDigits_nil hfs (.inr hne) r)

def IsDigits (m : List Char) : Prop := m = [] ∨ ∃ whole fraction, IsMantissa m whole fraction

/-- A point beside digits is part of a mantissa. -/
theorem isDigits_point {ds fs : List Char} (hds : AreDigits ds) (hfs : AreDigits fs) (h : ds ≠ [] ∨ fs ≠ []) :
    IsDigits (ds ++ '.' :: fs) := by
  by_cases hne : ds = []
  · subst hne
    exact .inr ⟨_, _, .fraction hfs (h.resolve_left fun h => h rfl)⟩
  · exact .inr ⟨_, _, .point hds hne hfs⟩

/-- Without a point beside a digit the first run is all there is. -/
theorem longest_whole {cs : List Char} (h : ∀ tail, cs.dropWhile isDigit = '.' :: tail →
    cs.takeWhile isDigit = [] ∧ tail.takeWhile isDigit = []) : Longest IsDigits cs (cs.takeWhile isDigit) where
  start := List.takeWhile_prefix _
  mem := by
    by_cases hne : cs.takeWhile isDigit = []
    · exact .inl hne
    · exact .inr ⟨_, _, .whole (longest_digits cs).mem hne⟩
  length_le := by
    rintro q hq (rfl | ⟨whole, fraction, hm⟩)
    · exact Nat.zero_le _
    · rcases hm.of_prefix hq with hle | ⟨tail, hdrop, hne, -⟩
      · exact hle
      · obtain ⟨hwhole, hfraction⟩ := h tail hdrop
        rcases hne with hne | hne
        · exact absurd hwhole hne
        · exact absurd hfraction hne

/-- With digits beside a point the mantissa goes on behind it. -/
theorem longest_point {cs tail : List Char} (hdrop : cs.dropWhile isDigit = '.' :: tail)
    (h : cs.takeWhile isDigit ≠ [] ∨ tail.takeWhile isDigit ≠ []) :
    Longest IsDigits cs (cs.takeWhile isDigit ++ '.' :: tail.takeWhile isDigit) where
  start := by
    obtain ⟨r, hr⟩ := List.takeWhile_prefix (l := tail) isDigit
    refine ⟨r, ?_⟩
    rw [List.append_assoc, List.cons_append, hr, ← hdrop, List.takeWhile_append_dropWhile]
  mem := isDigits_point (longest_digits cs).mem (longest_digits tail).mem h
  length_le := by
    rintro q hq (rfl | ⟨whole, fraction, hm⟩)
    · exact Nat.zero_le _
    · rcases hm.of_prefix hq with hle | ⟨tail', hdrop', -, hle⟩
      · exact hle.trans (by rw [List.length_append]; exact Nat.le_add_right _ _)
      · rw [hdrop] at hdrop'
        cases hdrop'
        exact hle

variable {before : List Char}

theorem head?_any_eq_iff {cs : List Char} {x : Char} : cs.head?.any (· = x) = true ↔ ∃ tail, cs = x :: tail := by
  cases cs with
  | nil => simp
  | cons c cs => simp

/-- Behind narrow characters the test for a point finds the one that follows the digits. -/
theorem testAt_point (hbefore : Narrow before) (cs : List Char) :
    testAt (· = '.') (bytes (before ++ cs)) (before ++ cs.takeWhile isDigit).length = true ↔
      ∃ tail, cs.dropWhile isDigit = '.' :: tail := by
  have hwhole : Narrow (before ++ cs.takeWhile isDigit) :=
    Text.narrow_append.2 ⟨hbefore, AreDigits.narrow (longest_digits cs).mem⟩
  have htest := hwhole.testAt_eq (isNarrow_eq (x := '.') (by decide)) (cs.dropWhile isDigit)
  rw [List.append_assoc, List.takeWhile_append_dropWhile] at htest
  rw [htest, head?_any_eq_iff]

/-- Where a point follows the digits the search stops behind its fraction, if there is a digit at all. -/
theorem mantissaEnd?_of_point (hbefore : Narrow before) {cs tail : List Char} (hdrop : cs.dropWhile isDigit = '.' :: tail) :
    mantissaEnd? (bytes (before ++ cs)) before.length =
      some (if 0 < (cs.takeWhile isDigit).length ∨ 0 < (tail.takeWhile isDigit).length then
        (before ++ (cs.takeWhile isDigit ++ '.' :: tail.takeWhile isDigit)).length
      else (before ++ cs.takeWhile isDigit).length) := by
  have htest := (testAt_point hbefore cs).2 ⟨tail, hdrop⟩
  have hbehind : Narrow (before ++ cs.takeWhile isDigit ++ ['.']) :=
    Text.narrow_append.2 ⟨Text.narrow_append.2 ⟨hbefore, AreDigits.narrow (longest_digits cs).mem⟩,
      Text.narrow_cons.2 ⟨by decide, Text.narrow_nil⟩⟩
  have hfraction := hbehind.runAt?_eq isNarrow_isDigit tail
  rw [List.append_assoc _ ['.'], List.singleton_append, ← hdrop, List.append_assoc before,
    List.takeWhile_append_dropWhile, List.length_append, List.length_append, List.length_singleton] at hfraction
  rw [List.length_append] at htest
  unfold mantissaEnd?
  simp only [hbefore.runAt?_eq isNarrow_isDigit, Option.bind_eq_bind, Option.bind_some, htest, if_true, hfraction]
  simp only [List.length_append, List.length_cons, Nat.add_assoc, Nat.add_comm 1]
  rfl

theorem mantissaEnd?_of_no_point (hbefore : Narrow before) {cs : List Char}
    (hdrop : ¬∃ tail, cs.dropWhile isDigit = '.' :: tail) :
    mantissaEnd? (bytes (before ++ cs)) before.length = some (before ++ cs.takeWhile isDigit).length := by
  have htest := Bool.eq_false_iff.2 (mt (testAt_point hbefore cs).1 hdrop)
  rw [List.length_append] at htest
  unfold mantissaEnd?
  simp only [hbefore.runAt?_eq isNarrow_isDigit, Option.bind_eq_bind, Option.bind_some, htest, Bool.false_eq_true, if_false]
  rw [List.length_append]
  rfl

/-- The search for the end of a mantissa takes the longest one. -/
theorem exists_mantissa (hbefore : Narrow before) (cs : List Char) :
    ∃ m, mantissaEnd? (bytes (before ++ cs)) before.length = some (before ++ m).length ∧ Longest IsDigits cs m := by
  by_cases hpoint : ∃ tail, cs.dropWhile isDigit = '.' :: tail
  · obtain ⟨tail, hdrop⟩ := hpoint
    have hend := mantissaEnd?_of_point hbefore hdrop
    by_cases hne : cs.takeWhile isDigit ≠ [] ∨ tail.takeWhile isDigit ≠ []
    · rw [if_pos (hne.imp List.length_pos_of_ne_nil List.length_pos_of_ne_nil)] at hend
      exact ⟨_, hend, longest_point hdrop hne⟩
    · rw [not_or, not_not, not_not] at hne
      rw [if_neg (by simp [hne.1, hne.2])] at hend
      refine ⟨_, hend, longest_whole fun tail' htail' => ?_⟩
      rw [hdrop] at htail'
      cases htail'
      exact hne
  · exact ⟨_, mantissaEnd?_of_no_point hbefore hpoint, longest_whole fun tail htail => absurd ⟨tail, htail⟩ hpoint⟩

def HasPower (x : List Char) : Prop := ∃ e, IsPower x e

/-- Without a mark, or without digits behind it, there is no power. -/
theorem longest_nothing {cs : List Char} (h : ∀ {c sign rest negative}, isPower c = true → IsSign sign negative →
    (sign = [] → Unsigned rest) → cs = c :: (sign ++ rest) → rest.takeWhile isDigit = []) : Longest HasPower cs [] where
  start := List.nil_prefix
  mem := ⟨0, .none⟩
  length_le := by
    rintro q ⟨r, rfl⟩ ⟨e, hq⟩
    cases hq with
    | none => exact Nat.zero_le _
    | some hmark hs hds hne =>
      refine absurd (h (by simpa [isPower] using hmark) hs (fun _ => AreDigits.unsigned hds hne r) ?_) ?_
      · rw [List.cons_append, List.append_assoc]
      · rw [List.takeWhile_append_of_pos hds]
        exact fun hnil => hne (List.append_eq_nil_iff.1 hnil).1

/-- A mark, a sign and digits in a row are a power, and no longer one is there. -/
theorem longest_power {c : Char} (hc : isPower c = true) {sign rest : List Char} {negative : Bool}
    (hs : IsSign sign negative) (hrest : sign = [] → Unsigned rest) (hne : rest.takeWhile isDigit ≠ []) :
    Longest HasPower (c :: (sign ++ rest)) (c :: (sign ++ rest.takeWhile isDigit)) where
  start := by
    obtain ⟨r, hr⟩ := List.takeWhile_prefix (l := rest) isDigit
    exact ⟨r, by rw [List.cons_append, List.append_assoc, hr]⟩
  mem := ⟨_, .some (by simpa [isPower] using hc) hs (longest_digits rest).mem hne⟩
  length_le := by
    rintro q ⟨r, hr⟩ ⟨e, hq⟩
    cases hq with
    | none => exact Nat.zero_le _
    | some hmark hs' hds hne' =>
      rw [List.cons_append, List.append_assoc] at hr
      injection hr with _ hr
      obtain ⟨rfl, rfl⟩ := hs'.unique hs (fun _ => AreDigits.unsigned hds hne' r) hrest hr
      have hle := (longest_digits _).length_le ⟨r, rfl⟩ hds
      rw [List.length_cons, List.length_cons, List.length_append, List.length_append]
      omega

/-- The search for the end of an exponent takes the longest one. -/
theorem exists_power (hbefore : Narrow before) (cs : List Char) :
    ∃ x, exponentEnd? (bytes (before ++ cs)) before.length = some (before ++ x).length ∧ Longest HasPower cs x := by
  unfold exponentEnd?
  rw [hbefore.testAt_eq isNarrow_isPower]
  cases cs with
  | nil => exact ⟨[], by rw [List.append_nil]; rfl, longest_nothing fun _ _ _ heq => nomatch heq⟩
  | cons c tail =>
    by_cases hc : isPower c = true
    · obtain ⟨sign, rest, negative, rfl, hs, hrest, hend⟩ := exists_sign tail
      have hmark : Narrow (before ++ [c]) :=
        Text.narrow_append.2 ⟨hbefore, Text.narrow_cons.2 ⟨isNarrow_isPower c hc, Text.narrow_nil⟩⟩
      have hfirst := hend hmark
      have hdigits := (Text.narrow_append.2 ⟨hmark, hs.narrow⟩).runAt?_eq isNarrow_isDigit rest
      have hlength : (before ++ [c]).length = before.length + 1 := List.length_append
      rw [List.append_assoc before, List.singleton_append, hlength] at hfirst
      rw [List.append_assoc _ sign, List.append_assoc before, List.singleton_append] at hdigits
      rw [if_pos (show (c :: (sign ++ rest)).head?.any isPower = true from hc)]
      simp only [hfirst, hdigits, Option.bind_eq_bind, Option.bind_some]
      by_cases hne : rest.takeWhile isDigit = []
      · refine ⟨[], by rw [hne, List.append_nil]; rfl, longest_nothing fun _ hs' hrest' heq => ?_⟩
        injection heq with _ heq
        obtain ⟨-, rfl⟩ := hs.unique hs' hrest hrest' heq
        exact hne
      · refine ⟨_, ?_, longest_power hc hs hrest hne⟩
        rw [if_pos (List.length_pos_of_ne_nil hne)]
        refine congrArg some ?_
        simp only [List.length_append, List.length_cons, List.length_nil]
        omega
    · rw [if_neg (show ¬(c :: tail).head?.any isPower = true from hc)]
      refine ⟨[], by rw [List.append_nil]; rfl, longest_nothing fun hc' _ _ heq => ?_⟩
      injection heq with heq _
      exact absurd (heq ▸ hc') hc

def IsLiteral (p : List Char) : Prop := ∃ v, Literal p v

/-- Behind the sign of a text stands what any literal at its start has behind its sign. -/
theorem Literal.exists_body {sign rest q : List Char} {negative : Bool} {v : Meaning} (hq : Literal q v)
    (hs : IsSign sign negative) (hrest : sign = [] → Unsigned rest) (hstart : q <+: sign ++ rest) :
    ∃ body, q = sign ++ body ∧ body <+: rest ∧ (body = "Infinity".toList ∨
      ∃ m x whole fraction, body = m ++ x ∧ IsMantissa m whole fraction ∧ HasPower x) := by
  obtain ⟨r, hr⟩ := hstart
  cases hq with
  | infinity hs' =>
    rw [List.append_assoc] at hr
    obtain ⟨rfl, rfl⟩ := hs'.unique hs (fun _ c hc => by cases hc; decide) hrest hr
    exact ⟨_, rfl, ⟨r, rfl⟩, .inl rfl⟩
  | decimal hs' hm hp =>
    rw [List.append_assoc, List.append_assoc] at hr
    obtain ⟨rfl, rfl⟩ := hs'.unique hs (fun _ => hm.unsigned _) hrest hr
    exact ⟨_, rfl, ⟨r, List.append_assoc _ _ _⟩, .inr ⟨_, _, _, _, rfl, hm, _, hp⟩⟩

/-- Of a mantissa and a power no longer beginning is made than of the longest mantissa and the longest power behind it. A
shorter mantissa leaves no room for a power, since the mark of one is neither digit nor point. -/
theorem length_le_of_longest {m x rest m' x' whole fraction : List Char} (hm : Longest IsDigits (m ++ rest) m)
    (hx : Longest HasPower rest x) (hm' : IsMantissa m' whole fraction) (hx' : HasPower x')
    (hstart : m' ++ x' <+: m ++ rest) : (m' ++ x').length ≤ (m ++ x).length := by
  have hprefix : m' <+: m ++ rest := (List.prefix_append m' x').trans hstart
  have hle := hm.length_le hprefix (.inr ⟨_, _, hm'⟩)
  obtain ⟨r, rfl⟩ := List.prefix_of_prefix_length_le hprefix (List.prefix_append m rest) hle
  rw [List.append_assoc, List.prefix_append_right_inj] at hstart
  cases r with
  | nil =>
    have hlength := hx.length_le hstart hx'
    rw [List.append_nil, List.length_append, List.length_append]
    omega
  | cons c r =>
    obtain ⟨e, hx'⟩ := hx'
    cases hx' with
    | none => simp
    | some hmark _ _ _ =>
      obtain ⟨rfl, -⟩ := List.cons_prefix_cons.1 hstart
      rcases hm.mem with hnil | ⟨_, _, h⟩
      · simp at hnil
      · refine absurd (h.mem _ (List.mem_append_right _ List.mem_cons_self)) ?_
        rcases hmark with rfl | rfl <;> decide

inductive Starts (text : List Char) : Start → Prop
  | nothing (h : ∀ p, p <+: text → ¬IsLiteral p) : Starts text .nothing
  | infinity {p : List Char} {negative : Bool} (h : Longest IsLiteral text p) (hp : Literal p (.infinity negative)) :
    Starts text (.infinity negative)
  | number {p : List Char} {n : Numeral} (h : Longest IsLiteral text p) (hp : Literal p (.decimal n)) :
    Starts text (.number p)

section

variable {sign rest : List Char} {negative : Bool}

/-- Whether the number is negative shows in its first byte. -/
theorem testAt_minus (hs : IsSign sign negative) (hrest : sign = [] → Unsigned rest) :
    testAt (· = '-') (bytes (sign ++ rest)) 0 = negative := by
  have htest := Text.narrow_nil.testAt_eq (isNarrow_eq (x := '-') (by decide)) (sign ++ rest)
  rw [List.nil_append, List.length_nil] at htest
  rw [htest]
  cases hs with
  | plus => rfl
  | minus => rfl
  | none =>
    rw [List.nil_append]
    cases rest with
    | nil => rfl
    | cons c cs => exact decide_eq_false (hrest rfl c rfl).2

/-- Behind a sign the word for infinity is the longest literal. -/
theorem longest_infinity (hs : IsSign sign negative) (hrest : sign = [] → Unsigned rest)
    (h : "Infinity".toList <+: rest) : Longest IsLiteral (sign ++ rest) (sign ++ "Infinity".toList) where
  start := (List.prefix_append_right_inj sign).2 h
  mem := ⟨_, .infinity hs⟩
  length_le := by
    rintro q hq ⟨v, hv⟩
    obtain ⟨body, rfl, hbody, rfl | ⟨m, x, _, _, rfl, hm, -⟩⟩ := hv.exists_body hs hrest hq
    · exact le_rfl
    · obtain ⟨tail, rfl⟩ := hbody
      rw [List.append_assoc] at h
      exact absurd h (hm.not_infinity _)

/-- Without the word and without digits no prefix is a literal. -/
theorem no_literal (hs : IsSign sign negative) (hrest : sign = [] → Unsigned rest) (h : ¬"Infinity".toList <+: rest)
    (hm : Longest IsDigits rest []) : ∀ p, p <+: sign ++ rest → ¬IsLiteral p := by
  rintro p hp ⟨v, hv⟩
  obtain ⟨body, rfl, hbody, rfl | ⟨m, x, _, _, rfl, hm', -⟩⟩ := hv.exists_body hs hrest hp
  · exact h hbody
  · have hle := hm.length_le ((List.prefix_append m x).trans hbody) (.inr ⟨_, _, hm'⟩)
    obtain ⟨c, cs, rfl, -⟩ := hm'.exists_head
    simp at hle

/-- The longest mantissa with the longest power behind it is the longest literal. -/
theorem longest_decimal {m x whole fraction : List Char} (hs : IsSign sign negative) (h : ¬"Infinity".toList <+: m ++ rest)
    (hm : Longest IsDigits (m ++ rest) m) (hmantissa : IsMantissa m whole fraction) (hx : Longest HasPower rest x) :
    Longest IsLiteral (sign ++ (m ++ rest)) (sign ++ (m ++ x)) where
  start := (List.prefix_append_right_inj sign).2 ((List.prefix_append_right_inj m).2 hx.start)
  mem := by
    obtain ⟨e, he⟩ := hx.mem
    exact ⟨_, .decimal hs hmantissa he⟩
  length_le := by
    rintro q hq ⟨v, hv⟩
    obtain ⟨body, rfl, hbody, rfl | ⟨m', x', _, _, rfl, hm', hx'⟩⟩ :=
      hv.exists_body hs (fun _ => hmantissa.unsigned _) hq
    · exact absurd hbody h
    · have hle := length_le_of_longest hm hx hm' hx' hbody
      simpa using hle

end

/-- The search never leaves the text and never cuts a character, and what it finds is right. -/
theorem exists_start (text : List Char) : ∃ start, start? text = some start ∧ Starts text start := by
  obtain ⟨sign, rest, negative, rfl, hs, hrest, hend⟩ := exists_sign text
  have hfirst : signEnd (bytes (sign ++ rest)) 0 = sign.length := hend Text.narrow_nil
  unfold start?
  simp only [hfirst, hs.narrow.cut?_eq, Option.bind_eq_bind, Option.bind_some]
  by_cases hword : "Infinity".toList <+: rest
  · rw [if_pos (List.isPrefixOf_iff_prefix.2 hword), testAt_minus hs hrest]
    exact ⟨_, rfl, .infinity (longest_infinity hs hrest hword) (.infinity hs)⟩
  · obtain ⟨m, hstop, hm⟩ := exists_mantissa hs.narrow rest
    rw [if_neg fun hprefix => hword (List.isPrefixOf_iff_prefix.1 hprefix), hstop, Option.bind_some]
    rcases hm.mem with rfl | ⟨whole, fraction, hmantissa⟩
    · rw [List.append_nil, if_pos rfl]
      exact ⟨_, rfl, .nothing (no_literal hs hrest hword hm)⟩
    · obtain ⟨rest, rfl⟩ := hm.start
      have hbefore : Narrow (sign ++ m) := Text.narrow_append.2 ⟨hs.narrow, hmantissa.narrow⟩
      obtain ⟨x, hpower, hx⟩ := exists_power hbefore rest
      obtain ⟨e, he⟩ := hx.mem
      obtain ⟨r, rfl⟩ := hx.start
      have hcut := (Text.narrow_append.2 ⟨hbefore, he.narrow⟩).cut?_eq r
      have hne : ¬(sign ++ m).length = sign.length := by
        obtain ⟨c, cs, rfl, -⟩ := hmantissa.exists_head
        simp
      rw [List.append_assoc sign m (x ++ r)] at hpower
      rw [List.append_assoc _ x r, List.append_assoc sign m (x ++ r)] at hcut
      rw [if_neg hne, hpower, Option.bind_some, hcut, Option.bind_some, List.append_assoc sign m x]
      exact ⟨_, rfl, .number (longest_decimal hs hword hm hmantissa hx) (.decimal hs hmantissa he)⟩

example : start? "-.e5".toList = some .nothing := by decide

example : start? "5.e+2.5".toList = some (.number "5.e+2".toList) := by decide

section

variable {α : Type} [Scalar α] [NumberText α] {cs p : List Char}

def Meaning.value : Meaning → α
  | .infinity negative => signed negative inf
  | .decimal n => n.value

/-- The number read is what the longest literal means. -/
theorem leading_of_longest {v : Meaning} (h : Longest IsLiteral (Text.trimStart cs) p) (hp : Literal p v) :
    (leading cs : α) = v.value := by
  obtain ⟨start, hstart, hstarts⟩ := exists_start (Text.trimStart cs)
  rw [leading, hstart]
  cases hstarts with
  | nothing hno => exact absurd h.mem (hno p h.start)
  | infinity h' hp' =>
    obtain rfl := h.eq h'
    rw [hp.unique hp']
    rfl
  | number h' hp' =>
    obtain rfl := h.eq h'
    rw [hp.unique hp']
    change (ofText? p).getD nan = _
    rw [hp'.ofText?_eq]
    rfl

theorem leading_of_no_literal (h : ∀ p, p <+: Text.trimStart cs → ¬IsLiteral p) : (leading cs : α) = nan := by
  obtain ⟨start, hstart, hstarts⟩ := exists_start (Text.trimStart cs)
  rw [leading, hstart]
  cases hstarts with
  | nothing _ => rfl
  | infinity h' _ => exact absurd h'.mem (h _ h'.start)
  | number h' _ => exact absurd h'.mem (h _ h'.start)

end

def worth (n : Numeral) : ℚ := (if n.negative then -1 else 1) * (n.mantissa * 10 ^ n.exponent)

/-- In exact arithmetic a numeral is worth what its digits say. -/
theorem value_exact (n : Numeral) : (n.value : Exact) = .finite n.worth := by
  change Exact.finite (if n.negative then -(Rat.ofInt (Int.ofNat n.mantissa) * Exact.power n.exponent)
    else Rat.ofInt (Int.ofNat n.mantissa) * Exact.power n.exponent) = _
  rw [worth, Exact.power_eq]
  split
  · rw [neg_one_mul]
    rfl
  · rw [one_mul]
    rfl

/-- The binary64 number that a literal means: the one that its digits and power are rounded to, with the sign. -/
inductive Meaning.IsRead : Meaning → Float → Prop
  | infinity (negative : Bool) : IsRead (.infinity negative) (signed negative inf)
  | decimal {n : Numeral} {x : Float} (h : Binary.IsNearest (n.mantissa * 10 ^ n.exponent) x) :
    IsRead (.decimal n) (signed n.negative x)

theorem Meaning.isRead_value (v : Meaning) : v.IsRead v.value := by
  cases v with
  | infinity negative => exact .infinity negative
  | decimal n => exact .decimal (Binary.ofScientific_isNearest n.mantissa n.exponent)

/-- The longest literal at the start of a text, blanks apart, decides what the text is read as: the signed infinity or the
number next to its decimal, and "not a number" where there is none. In exact arithmetic it is the decimal itself. On the way
the text is cut between characters only, and what is cut out is never refused. -/
theorem leading_decided (cs : List Char) :
    (∃ start, start? (Text.trimStart cs) = some start ∧
      ∀ text, start = .number text → ∃ x : Float, ofText? text = some x) ∧
    ((∀ p, p <+: Text.trimStart cs → ¬IsLiteral p) → (leading cs : Float) = nan) ∧
    (∀ p v, Longest IsLiteral (Text.trimStart cs) p → Literal p v → v.IsRead (leading cs)) ∧
    ∀ p n, Longest IsLiteral (Text.trimStart cs) p → Literal p (.decimal n) →
      (leading cs : Exact) = .finite n.worth := by
  refine ⟨?_, leading_of_no_literal, fun p v h hp => ?_, fun p n h hp => ?_⟩
  · obtain ⟨start, hstart, hstarts⟩ := exists_start (Text.trimStart cs)
    refine ⟨start, hstart, ?_⟩
    rintro text rfl
    cases hstarts with
    | number _ hp => exact ⟨_, hp.ofText?_eq⟩
  · rw [leading_of_longest h hp]
    exact v.isRead_value
  · rw [leading_of_longest h hp]
    exact value_exact n

/-- An exponent without digits is left, and so is the wide character behind it. -/
theorem leading_backs_off :
    Literal "-12.5".toList (.decimal ⟨true, 125, -1⟩) ∧
      (Meaning.decimal ⟨true, 125, -1⟩).IsRead (leading " -12.5e+é".toList) ∧
      (leading " -12.5e+é".toList : Exact) = .finite (-25 / 2) := by
  obtain ⟨-, -, hread, hexact⟩ := leading_decided " -12.5e+é".toList
  have hmantissa : IsMantissa (['1', '2'] ++ '.' :: ['5']) ['1', '2'] ['5'] :=
    .point (by decide) (by decide) (by decide)
  have hliteral : Literal "-12.5".toList (.decimal ⟨true, 125, -1⟩) := .decimal .minus hmantissa .none
  have hlongest : Longest IsLiteral (Text.trimStart " -12.5e+é".toList) "-12.5".toList := by
    obtain ⟨start, hstart, hstarts⟩ := exists_start (Text.trimStart " -12.5e+é".toList)
    have heval : start? (Text.trimStart " -12.5e+é".toList) = some (.number "-12.5".toList) := by decide
    rw [heval] at hstart
    cases hstart
    cases hstarts with
    | number h _ => exact h
  refine ⟨hliteral, hread _ _ hlongest hliteral, (hexact _ _ hlongest hliteral).trans ?_⟩
  norm_num [worth]

end Whisker.Numeral
