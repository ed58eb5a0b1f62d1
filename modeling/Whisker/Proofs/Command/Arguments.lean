import Mathlib
import Whisker.Command
import Whisker.Proofs.Decimal.Literal
import Whisker.Proofs.Text.Pieces

/-!
# What arguments mean

Arguments that can be read are groups, one after the other: a flag that stands alone, or a flag and the argument after
it. Reading takes such groups for what each of them says, and what they say together is, for every field, what the last
group of its flag says. So only the order of the groups of one flag matters.
-/

namespace Whisker.Command

open Decimal (AreDigits ofDigits digitValue)
open Numeral (isDigit)

/-- Digits, perhaps behind a plus sign, that spell a number below a limit. -/
def IsNumber (limit : ℕ) (cs : List Char) (n : ℕ) : Prop :=
  ∃ ds, (cs = ds ∨ cs = '+' :: ds) ∧ ds ≠ [] ∧ AreDigits ds ∧ ofDigits ds = n ∧ n < limit

def IsColor (text : String) : ℕ × ℕ × ℕ → Prop
  | (r, g, b) => ∃ red green blue, text.toList.splitOn ',' = [red, green, blue] ∧ IsNumber 256 (Text.trim red) r
      ∧ IsNumber 256 (Text.trim green) g ∧ IsNumber 256 (Text.trim blue) b

def IsSize (text : String) (pixels : ℕ) : Prop := IsNumber UInt32.size text.toList pixels ∧ 0 < pixels

theorem le_foldl_digits (cs : List Char) (n : ℕ) : n ≤ cs.foldl (fun n c => 10 * n + digitValue c) n := by
  induction cs generalizing n with
  | nil => exact le_rfl
  | cons c cs ih =>
    have hn : n ≤ 10 * n + digitValue c := by omega
    exact hn.trans (ih _)

/-- No digit takes the number back below the limit, so the first one too many decides. -/
theorem readDigits_eq_ok_iff {limit acc n : ℕ} (hacc : acc < limit) (cs : List Char) :
    readDigits limit acc cs = .ok n ↔
      AreDigits cs ∧ cs.foldl (fun n c => 10 * n + digitValue c) acc = n ∧ n < limit := by
  induction cs generalizing acc with
  | nil =>
    simp only [readDigits, Except.ok.injEq, Decimal.areDigits_nil, List.foldl_nil, true_and]
    constructor
    · intro h
      exact ⟨h, h ▸ hacc⟩
    · intro h
      exact h.1
  | cons c cs ih =>
    rw [readDigits, AreDigits, List.forall_mem_cons, List.foldl_cons]
    by_cases hc : isDigit c = true
    · by_cases hlt : 10 * acc + digitValue c < limit
      · simp only [hc, hlt, if_true, ih hlt, AreDigits, true_and]
      · have hle := le_foldl_digits cs (10 * acc + digitValue c)
        simp only [hc, hlt, if_true, if_false, reduceCtorEq, false_iff]
        omega
    · simp [hc]

/-- A number is read exactly from the texts that spell one below the limit. -/
theorem readNat_eq_ok_iff {limit n : ℕ} (hlimit : 0 < limit) (cs : List Char) :
    readNat limit cs = .ok n ↔ IsNumber limit cs n := by
  have hplus {ds : List Char} : ¬AreDigits ('+' :: ds) := fun h => absurd (h '+' List.mem_cons_self) (by decide)
  fun_cases readNat limit cs with
  | case1 => simp [IsNumber]
  | case2 => simp [IsNumber, hplus]
  | case3 cs hne =>
    rw [readDigits_eq_ok_iff hlimit]
    constructor
    · rintro ⟨hds, hn, hlt⟩
      exact ⟨cs, .inr rfl, hne, hds, hn, hlt⟩
    · rintro ⟨ds, rfl | hcs, -, hds, hn, hlt⟩
      · exact absurd hds hplus
      · cases hcs
        exact ⟨hds, hn, hlt⟩
  | case4 cs hne hplus₁ hplus₂ =>
    rw [readDigits_eq_ok_iff hlimit]
    constructor
    · rintro ⟨hds, hn, hlt⟩
      exact ⟨cs, .inl rfl, hne, hds, hn, hlt⟩
    · rintro ⟨ds, rfl | rfl, -, hds, hn, hlt⟩
      · exact ⟨hds, hn, hlt⟩
      · exact absurd rfl (hplus₂ ds)

/-- A list that is read entry by entry. -/
theorem mapM_eq_ok_iff {β γ ε : Type} {f : β → Except ε γ} (xs : List β) (ys : List γ) :
    xs.mapM f = .ok ys ↔ List.Forall₂ (fun x y => f x = .ok y) xs ys := by
  induction xs generalizing ys with
  | nil => simp [pure, Except.pure, eq_comm]
  | cons x xs ih =>
    rw [List.mapM_cons, List.forall₂_cons_left_iff]
    simp only [bind_eq_ok, ih, pure, Except.pure, Except.ok.injEq]
    constructor
    · rintro ⟨y, hy, ys, hys, rfl⟩
      exact ⟨y, ys, hy, hys, rfl⟩
    · rintro ⟨y, ys, hy, hys, rfl⟩
      exact ⟨y, hy, ys, hys, rfl⟩

theorem readColor_eq_ok_iff {text : String} {rgb : ℕ × ℕ × ℕ} : readColor text = .ok rgb ↔ IsColor text rgb := by
  obtain ⟨r, g, b⟩ := rgb
  simp only [readColor, bind_eq_ok, mapError_eq_ok, mapM_eq_ok_iff, readNat_eq_ok_iff (Nat.zero_lt_succ 255),
    Text.split_eq_splitOn, IsColor]
  constructor
  · rintro ⟨channels, hread, hrgb⟩
    split at hrgb
    · next =>
      cases hrgb
      simp only [List.forall₂_cons_right_iff, List.forall₂_nil_right_iff] at hread
      obtain ⟨red, _, hr, ⟨green, _, hg, ⟨blue, _, hb, rfl, rfl⟩, rfl⟩, hsplit⟩ := hread
      exact ⟨red, green, blue, hsplit, hr, hg, hb⟩
    · cases hrgb
  · rintro ⟨red, green, blue, hsplit, hr, hg, hb⟩
    rw [hsplit]
    exact ⟨[r, g, b], .cons hr (.cons hg (.cons hb .nil)), rfl⟩

/-- A size is read exactly from a positive number of 32 bits. -/
theorem readSize_eq_ok_iff {flag text : String} {pixels : ℕ} :
    readSize flag text = .ok pixels ↔ IsSize text pixels := by
  have hsize : 0 < UInt32.size := by decide
  simp only [readSize, bind_eq_ok, mapError_eq_ok, readNat_eq_ok_iff hsize, IsSize]
  constructor
  · rintro ⟨n, hn, hpixels⟩
    split at hpixels
    · cases hpixels
    · next hne =>
      cases hpixels
      exact ⟨hn, Nat.pos_of_ne_zero hne⟩
  · rintro ⟨hpixels, hpos⟩
    refine ⟨pixels, hpixels, ?_⟩
    split
    · cases hpos
    · rfl

theorem isColor_unique : Relator.RightUnique IsColor := fun _ _ _ h h' =>
  Except.ok.inj ((readColor_eq_ok_iff.2 h).symm.trans (readColor_eq_ok_iff.2 h'))

theorem isSize_unique : Relator.RightUnique IsSize := fun text _ n h h' =>
  Except.ok.inj ((readSize_eq_ok_iff.2 h).symm.trans ((@readSize_eq_ok_iff "" text n).2 h'))

/-- A flag that stands alone, or a flag and the argument after it. -/
structure ArgGroup where
  flag : String
  value : Option String
  deriving DecidableEq

namespace ArgGroup

def words (g : ArgGroup) : List String := g.flag :: g.value.toList

/-- What the groups mean: ten flags take any argument, though three of them not every text, and four stand alone. -/
inductive Means : ArgGroup → Arg → Prop where
  | input (location : String) : Means ⟨"--input", some location⟩ (.input location)
  | output (path : String) : Means ⟨"--output", some path⟩ (.output path)
  | scale (text : String) : Means ⟨"--scale", some text⟩ (.scale text)
  | chartType (name : String) : Means ⟨"--type", some name⟩ (.chartType name)
  | yLabel (text : String) : Means ⟨"--ylabel", some text⟩ (.yLabel text)
  | xLabel (text : String) : Means ⟨"--xlabel", some text⟩ (.xLabel text)
  | color {text : String} {rgb : ℕ × ℕ × ℕ} (h : IsColor text rgb) : Means ⟨"--color", some text⟩ (.color rgb)
  | width {text : String} {pixels : ℕ} (h : IsSize text pixels) : Means ⟨"--width", some text⟩ (.width pixels)
  | height {text : String} {pixels : ℕ} (h : IsSize text pixels) : Means ⟨"--height", some text⟩ (.height pixels)
  | config (path : String) : Means ⟨"--config", some path⟩ (.config path)
  | errors : Means ⟨"--errors", none⟩ .errors
  | transparent : Means ⟨"--transparent", none⟩ .transparent
  | verbose : Means ⟨"--verbose", none⟩ .verbose
  | shortVerbose : Means ⟨"-v", none⟩ .verbose

def IsMeaningful (g : ArgGroup) : Prop := ∃ arg, g.Means arg

theorem forall_isMeaningful {gs : List ArgGroup} {as : List Arg} (h : List.Forall₂ Means gs as) :
    ∀ g ∈ gs, g.IsMeaningful := by
  induction h with
  | nil => exact fun _ hg => nomatch hg
  | cons hg _ ih => exact List.forall_mem_cons.2 ⟨⟨_, hg⟩, ih⟩

theorem exists_meanings {gs : List ArgGroup} (h : ∀ g ∈ gs, g.IsMeaningful) : ∃ as, List.Forall₂ Means gs as := by
  induction gs with
  | nil => exact ⟨[], .nil⟩
  | cons g gs ih =>
    obtain ⟨hg, hgs⟩ := List.forall_mem_cons.1 h
    obtain ⟨arg, harg⟩ := hg
    obtain ⟨as, has⟩ := ih hgs
    exact ⟨arg :: as, .cons harg has⟩

end ArgGroup

open ArgGroup (Means words)

/-- A flag with a value means what the flag makes of the value. -/
theorem means_some_iff {flag value : String} {arg : Arg} :
    Means ⟨flag, some value⟩ arg ↔ withValue? flag value = some (.ok arg) := by
  constructor
  · intro h
    cases h with
    | color h => rw [withValue?, readColor_eq_ok_iff.2 h, Except.map]
    | width h => rw [withValue?, readSize_eq_ok_iff.2 h, Except.map]
    | height h => rw [withValue?, readSize_eq_ok_iff.2 h, Except.map]
    | _ => rfl
  · intro h
    rw [withValue?.eq_def] at h
    split at h
    case h_7 =>
      obtain ⟨rgb, hrgb, rfl⟩ := map_eq_ok.1 (Option.some.inj h)
      exact .color (readColor_eq_ok_iff.1 hrgb)
    case h_8 =>
      obtain ⟨pixels, hpixels, rfl⟩ := map_eq_ok.1 (Option.some.inj h)
      exact .width (readSize_eq_ok_iff.1 hpixels)
    case h_9 =>
      obtain ⟨pixels, hpixels, rfl⟩ := map_eq_ok.1 (Option.some.inj h)
      exact .height (readSize_eq_ok_iff.1 hpixels)
    all_goals cases h
    all_goals constructor

/-- Whether a flag takes a value does not depend on the value. -/
theorem withValue?_eq_none {flag value : String} (h : withValue? flag value = none) (value' : String) :
    withValue? flag value' = none := by
  rw [withValue?.eq_def] at h
  split at h
  case h_11 => rw [withValue?] <;> assumption
  all_goals cases h

/-- A flag without a value means something only if it takes none. -/
theorem means_none_iff {flag : String} {arg : Arg} :
    Means ⟨flag, none⟩ arg ↔ withValue? flag "" = none ∧ alone flag = .ok arg := by
  constructor
  · intro h
    cases h with
    | _ => exact ⟨rfl, rfl⟩
  · intro h
    have halone := h.2
    rw [alone.eq_def] at halone
    split at halone
    all_goals cases halone
    all_goals constructor

/-- A group is taken off the front, whatever follows it. -/
theorem readArgs_words {g : ArgGroup} {arg : Arg} (h : g.Means arg) (args : List String) :
    readArgs (g.words ++ args) = (readArgs args).map (arg :: ·) := by
  obtain ⟨flag, value | value⟩ := g
  · obtain ⟨hvalue, halone⟩ := means_none_iff.1 h
    cases args with
    | nil =>
      change readArgs [flag] = .ok [arg]
      rw [readArgs, hvalue, halone]
      rfl
    | cons value rest =>
      change readArgs (flag :: value :: rest) = _
      rw [readArgs, withValue?_eq_none hvalue, halone]
      rfl
  · change readArgs (flag :: value :: args) = _
    rw [readArgs, means_some_iff.1 h]
    rfl

/-- The words of groups are read group by group. -/
theorem readArgs_flatMap {gs : List ArgGroup} {as : List Arg} (h : List.Forall₂ Means gs as) :
    readArgs (gs.flatMap words) = .ok as := by
  induction h with
  | nil => rfl
  | cons hg _ ih => rw [List.flatMap_cons, readArgs_words hg, ih, Except.map]

/-- What can be read is groups, cut off from the left as reading goes. -/
theorem exists_groups {args : List String} {as : List Arg} (h : readArgs args = .ok as) :
    ∃ gs, args = gs.flatMap words ∧ List.Forall₂ Means gs as := by
  fun_induction readArgs args generalizing as with
  | case1 =>
    cases h
    exact ⟨[], rfl, .nil⟩
  | case2 flag => cases h
  | case3 flag hvalue =>
    obtain ⟨arg, halone, hret⟩ := bind_eq_ok.1 h
    cases hret
    exact ⟨[⟨flag, none⟩], rfl, .cons (means_none_iff.2 ⟨hvalue, halone⟩) .nil⟩
  | case4 flag value rest arg hvalue ih =>
    obtain ⟨arg, harg, hrest⟩ := bind_eq_ok.1 h
    obtain ⟨as, has, hret⟩ := bind_eq_ok.1 hrest
    cases hret
    obtain ⟨gs, hgs, hmeans⟩ := ih has
    refine ⟨⟨flag, some value⟩ :: gs, ?_, .cons (means_some_iff.2 ?_) hmeans⟩
    · rw [List.flatMap_cons, ← hgs]
      rfl
    · rw [hvalue, harg]
  | case5 flag value rest hvalue ih =>
    obtain ⟨arg, halone, hrest⟩ := bind_eq_ok.1 h
    obtain ⟨as, has, hret⟩ := bind_eq_ok.1 hrest
    cases hret
    obtain ⟨gs, hgs, hmeans⟩ := ih has
    refine ⟨⟨flag, none⟩ :: gs, ?_, .cons (means_none_iff.2 ⟨withValue?_eq_none hvalue "", halone⟩) hmeans⟩
    rw [List.flatMap_cons, ← hgs]
    rfl

def last? (flag : String) (gs : List ArgGroup) : Option ArgGroup := (gs.filter (·.flag = flag)).getLast?

def lastValue? (flag : String) (gs : List ArgGroup) : Option String := (last? flag gs).bind ArgGroup.value

/-- The last group of a flag is the new one if it has this flag. -/
@[simp] theorem last?_concat (flag : String) (gs : List ArgGroup) (g : ArgGroup) :
    last? flag (gs ++ [g]) = if g.flag = flag then some g else last? flag gs := by
  by_cases hg : g.flag = flag <;> simp [last?, hg]

@[simp] theorem lastValue?_concat (flag : String) (gs : List ArgGroup) (g : ArgGroup) :
    lastValue? flag (gs ++ [g]) = if g.flag = flag then g.value else lastValue? flag gs := by
  by_cases hg : g.flag = flag <;> simp [lastValue?, hg]

theorem last?_eq_some {flag : String} {gs : List ArgGroup} {g : ArgGroup} (h : last? flag gs = some g) :
    g ∈ gs ∧ g.flag = flag := by
  have hg := List.mem_filter.1 (List.mem_of_getLast? h)
  exact ⟨hg.1, of_decide_eq_true hg.2⟩

/-- A flag has a last group exactly if it occurs. -/
theorem isSome_last? {flag : String} {gs : List ArgGroup} :
    (last? flag gs).isSome = true ↔ ∃ g ∈ gs, g.flag = flag := by
  simp [last?]

/-- No group of a flag that takes a value lacks it. -/
theorem isSome_lastValue? {flag : String} {gs : List ArgGroup} (hflag : withValue? flag "" ≠ none)
    (h : ∀ g ∈ gs, g.IsMeaningful) : (lastValue? flag gs).isSome = true ↔ ∃ g ∈ gs, g.flag = flag := by
  rw [← isSome_last?, lastValue?]
  cases hlast : last? flag gs with
  | none => simp
  | some g =>
    obtain ⟨hmem, rfl⟩ := last?_eq_some hlast
    obtain ⟨arg, harg⟩ := h g hmem
    obtain ⟨flag, value | value⟩ := g
    · exact absurd (means_none_iff.1 harg).1 hflag
    · simp

/-- The fields that may be left out: what the last group of their flag says, or a default. -/
structure Arguments.OptionsFollow (a : Arguments) (gs : List ArgGroup) : Prop where
  scale : a.scale = lastValue? "--scale" gs
  errors : a.errors = (last? "--errors" gs).isSome
  chartType : a.history.chartType = lastValue? "--type" gs
  yLabel : a.history.yLabel = (lastValue? "--ylabel" gs).getD ""
  xLabel : a.history.xLabel = lastValue? "--xlabel" gs
  color : Option.Rel IsColor (lastValue? "--color" gs) a.history.color
  width : (lastValue? "--width" gs).elim (a.width = 800) (IsSize · a.width)
  height : (lastValue? "--height" gs).elim (a.height = 400) (IsSize · a.height)
  config : a.config = lastValue? "--config" gs
  transparent : a.transparent = (last? "--transparent" gs).isSome
  verbose : a.verbose = ((last? "--verbose" gs).isSome || (last? "-v" gs).isSome)

/-- The required fields are what the last group of their flag says too. -/
structure Arguments.Follows (a : Arguments) (gs : List ArgGroup) : Prop where
  input : lastValue? "--input" gs = some a.input
  output : lastValue? "--output" gs = some a.output
  options : a.OptionsFollow gs

/-- The same of a draft, which keeps the required fields apart. -/
structure Draft.Follows (d : Draft) (gs : List ArgGroup) : Prop where
  input : d.input = lastValue? "--input" gs
  output : d.output = lastValue? "--output" gs
  options : d.rest.OptionsFollow gs
  noInput : d.rest.input = ""
  noOutput : d.rest.output = ""

theorem Draft.follows_empty : Draft.empty.Follows [] := by
  constructor
  case options =>
    constructor
    case color => exact .none
    all_goals rfl
  all_goals rfl

/-- Adding what a group means follows the groups with this one behind them. -/
theorem Draft.Follows.add {d : Draft} {gs : List ArgGroup} {g : ArgGroup} {arg : Arg} (h : d.Follows gs) (hg : g.Means arg) :
    (d.add arg).Follows (gs ++ [g]) := by
  obtain ⟨hinput, houtput, ⟨hscale, herrors, htype, hyLabel, hxLabel, hcolor, hwidth, hheight, hconfig, htransparent,
    hverbose⟩, hnoInput, hnoOutput⟩ := h
  cases hg
  all_goals
    constructor
    case options => constructor <;> simp [Draft.add, *]
    all_goals simp [Draft.add, *]

/-- A run over the groups is one step for each, which adds the group at the end. -/
theorem Draft.Follows.foldl_add {d : Draft} {gs₀ gs : List ArgGroup} {as : List Arg} (h : d.Follows gs₀)
    (hmeans : List.Forall₂ Means gs as) : (as.foldl Draft.add d).Follows (gs₀ ++ gs) := by
  induction hmeans generalizing d gs₀ with
  | nil => rwa [List.append_nil]
  | cons hg _ ih =>
    rw [List.foldl_cons, List.append_cons]
    exact ih (h.add hg)

theorem eq_of_rel {β γ : Type} {R : β → γ → Prop} (hR : Relator.RightUnique R) {x : Option β} {y z : Option γ}
    (hy : Option.Rel R x y) (hz : Option.Rel R x z) : y = z := by
  cases hy with
  | none =>
    cases hz
    rfl
  | some hy =>
    cases hz with
    | some hz => exact congrArg some (hR hy hz)

theorem eq_of_elim {β γ : Type} {R : β → γ → Prop} (hR : Relator.RightUnique R) {x : Option β} {standard y z : γ}
    (hy : x.elim (y = standard) (R · y)) (hz : x.elim (z = standard) (R · z)) : y = z := by
  cases x with
  | none => exact hy.trans hz.symm
  | some x => exact hR hy hz

/-- Groups determine the options. -/
theorem Arguments.OptionsFollow.unique {a b : Arguments} {gs : List ArgGroup} (ha : a.OptionsFollow gs)
    (hb : b.OptionsFollow gs) (hinput : a.input = b.input) (houtput : a.output = b.output) : a = b := by
  have hcolor := eq_of_rel isColor_unique ha.color hb.color
  have hwidth := eq_of_elim isSize_unique ha.width hb.width
  have hheight := eq_of_elim isSize_unique ha.height hb.height
  have hhistory : a.history = b.history := by
    rw [History.mk.injEq]
    exact ⟨ha.chartType.trans hb.chartType.symm, ha.yLabel.trans hb.yLabel.symm, ha.xLabel.trans hb.xLabel.symm, hcolor⟩
  rw [Arguments.mk.injEq]
  exact ⟨hinput, houtput, ha.scale.trans hb.scale.symm, ha.errors.trans hb.errors.symm, hhistory, hwidth, hheight,
    ha.config.trans hb.config.symm, ha.transparent.trans hb.transparent.symm, ha.verbose.trans hb.verbose.symm⟩

/-- Groups determine the draft. -/
theorem Draft.Follows.unique {d e : Draft} {gs : List ArgGroup} (hd : d.Follows gs) (he : e.Follows gs) : d = e := by
  have hrest := hd.options.unique he.options (hd.noInput.trans he.noInput.symm) (hd.noOutput.trans he.noOutput.symm)
  rw [Draft.mk.injEq]
  exact ⟨hd.input.trans he.input.symm, hd.output.trans he.output.symm, hrest⟩

/-- Only the order within each flag counts. -/
theorem Draft.Follows.reorder {d : Draft} {gs gs' : List ArgGroup} (h : d.Follows gs)
    (hsame : ∀ flag, gs'.filter (·.flag = flag) = gs.filter (·.flag = flag)) : d.Follows gs' := by
  have hlast (flag : String) : last? flag gs' = last? flag gs := congrArg List.getLast? (hsame flag)
  have hvalue (flag : String) : lastValue? flag gs' = lastValue? flag gs :=
    congrArg (Option.bind · ArgGroup.value) (hlast flag)
  obtain ⟨hinput, houtput, ⟨hscale, herrors, htype, hyLabel, hxLabel, hcolor, hwidth, hheight, hconfig, htransparent,
    hverbose⟩, hnoInput, hnoOutput⟩ := h
  constructor
  case options => constructor <;> simp only [*]
  all_goals simp only [*]

/-- A draft is finished exactly if both required fields are there. -/
theorem Draft.Follows.finish_eq_ok_iff {d : Draft} {gs : List ArgGroup} {a : Arguments} (h : d.Follows gs) :
    d.finish = .ok a ↔ a.Follows gs := by
  have hopts (input output : String) : { d.rest with input, output : Arguments }.OptionsFollow gs := by
    obtain ⟨_, _, h, _, _⟩ := h
    exact ⟨h.scale, h.errors, h.chartType, h.yLabel, h.xLabel, h.color, h.width, h.height, h.config, h.transparent,
      h.verbose⟩
  constructor
  · intro hfinish
    rw [Draft.finish.eq_def] at hfinish
    split at hfinish
    · cases hfinish
    · cases hfinish
    · next input output hinput houtput =>
      cases hfinish
      exact ⟨h.input.symm.trans hinput, h.output.symm.trans houtput, hopts input output⟩
  · intro ha
    rw [Draft.finish, h.input, h.output, ha.input, ha.output]
    exact congrArg Except.ok ((hopts a.input a.output).unique ha.options rfl rfl)

/-- Groups that mean something have a draft, and parsing their words finishes it. -/
theorem exists_draft {gs : List ArgGroup} (h : ∀ g ∈ gs, g.IsMeaningful) :
    ∃ d : Draft, d.Follows gs ∧ Arguments.parse (gs.flatMap words) = d.finish := by
  obtain ⟨as, hmeans⟩ := ArgGroup.exists_meanings h
  refine ⟨as.foldl Draft.add Draft.empty, Draft.follows_empty.foldl_add hmeans, ?_⟩
  rw [Arguments.parse, readArgs_flatMap hmeans]
  rfl

/-- Parsing answers the arguments that follow the groups, if there are such. -/
theorem parse_groups_eq_ok_iff {gs : List ArgGroup} (h : ∀ g ∈ gs, g.IsMeaningful) (a : Arguments) :
    Arguments.parse (gs.flatMap words) = .ok a ↔ a.Follows gs := by
  obtain ⟨d, hd, hparse⟩ := exists_draft h
  rw [hparse, hd.finish_eq_ok_iff]

/-- Parsing succeeds exactly if input and output are named. -/
theorem exists_parse_groups {gs : List ArgGroup} (h : ∀ g ∈ gs, g.IsMeaningful) :
    (∃ a, Arguments.parse (gs.flatMap words) = .ok a) ↔
      (∃ g ∈ gs, g.flag = "--input") ∧ ∃ g ∈ gs, g.flag = "--output" := by
  obtain ⟨d, hd, hparse⟩ := exists_draft h
  have hinput : (lastValue? "--input" gs).isSome = true ↔ ∃ g ∈ gs, g.flag = "--input" := isSome_lastValue? nofun h
  have houtput : (lastValue? "--output" gs).isSome = true ↔ ∃ g ∈ gs, g.flag = "--output" := isSome_lastValue? nofun h
  rw [hparse, ← hinput, ← houtput, ← hd.input, ← hd.output, Draft.finish]
  cases d.input with
  | none => simp
  | some input => cases d.output <;> simp

/-- Arguments can be read exactly if they are groups that mean something, with both required flags among them. The groups
settle every field by the last of its flag, so an order that keeps the groups of each flag in sequence is as good. -/
theorem parse_reads_groups :
    (∀ args, (∃ a, Arguments.parse args = .ok a) ↔
      ∃ gs : List ArgGroup, args = gs.flatMap words ∧ (∀ g ∈ gs, g.IsMeaningful)
        ∧ (∃ g ∈ gs, g.flag = "--input") ∧ ∃ g ∈ gs, g.flag = "--output")
    ∧ ∀ gs : List ArgGroup, (∀ g ∈ gs, g.IsMeaningful) →
      (∀ a, Arguments.parse (gs.flatMap words) = .ok a ↔ a.Follows gs)
      ∧ ∀ gs' : List ArgGroup, (∀ flag, gs'.filter (·.flag = flag) = gs.filter (·.flag = flag)) →
        Arguments.parse (gs'.flatMap words) = Arguments.parse (gs.flatMap words) := by
  refine ⟨fun args => ⟨?_, ?_⟩, fun gs hgs => ⟨parse_groups_eq_ok_iff hgs, fun gs' hsame => ?_⟩⟩
  · rintro ⟨a, ha⟩
    obtain ⟨as, has, -⟩ := bind_eq_ok.1 ha
    obtain ⟨gs, rfl, hmeans⟩ := exists_groups has
    have hgs : ∀ g ∈ gs, g.IsMeaningful := ArgGroup.forall_isMeaningful hmeans
    exact ⟨gs, rfl, hgs, (exists_parse_groups hgs).1 ⟨a, ha⟩⟩
  · rintro ⟨gs, rfl, hgs, hrequired⟩
    exact (exists_parse_groups hgs).2 hrequired
  · have hgs' : ∀ g ∈ gs', g.IsMeaningful := by
      intro g hg
      have hmem : g ∈ gs'.filter (·.flag = g.flag) := List.mem_filter.2 ⟨hg, decide_eq_true rfl⟩
      rw [hsame] at hmem
      exact hgs g (List.mem_filter.1 hmem).1
    obtain ⟨d, hd, hparse⟩ := exists_draft hgs
    obtain ⟨d', hd', hparse'⟩ := exists_draft hgs'
    rw [hparse, hparse', hd'.unique (hd.reorder hsame)]

/-- The last of two inputs counts, a value may look like a flag, and other groups may move past each other. -/
theorem repeated_input_is_read :
    let gs : List ArgGroup := [⟨"--input", some "a.json"⟩, ⟨"--width", some "+640"⟩, ⟨"--output", some "--errors"⟩,
      ⟨"-v", none⟩, ⟨"--color", some "1, 2,+3"⟩, ⟨"--input", some "b.json"⟩]
    let gs' : List ArgGroup := [⟨"-v", none⟩, ⟨"--input", some "a.json"⟩, ⟨"--color", some "1, 2,+3"⟩,
      ⟨"--input", some "b.json"⟩, ⟨"--output", some "--errors"⟩, ⟨"--width", some "+640"⟩]
    (∀ g ∈ gs, g.IsMeaningful) ∧ (∀ flag, gs'.filter (·.flag = flag) = gs.filter (·.flag = flag))
      ∧ Arguments.parse (gs.flatMap words) = .ok
        ⟨"b.json", "--errors", none, false, ⟨none, "", none, some (1, 2, 3)⟩, 640, 400, none, false, true⟩
      ∧ Arguments.parse (gs'.flatMap words) = Arguments.parse (gs.flatMap words) := by
  intro gs gs'
  have hsize : IsSize "+640" 640 := (@readSize_eq_ok_iff "--width" _ _).1 rfl
  have hcolor : IsColor "1, 2,+3" (1, 2, 3) := readColor_eq_ok_iff.1 rfl
  have hgs : ∀ g ∈ gs, g.IsMeaningful := ArgGroup.forall_isMeaningful <|
    .cons (.input _) <| .cons (.width hsize) <| .cons (.output _) <| .cons .shortVerbose <| .cons (.color hcolor) <|
      .cons (.input _) .nil
  have hsame (flag : String) : gs'.filter (·.flag = flag) = gs.filter (·.flag = flag) := by
    by_cases hflag : flag ∈ gs.map ArgGroup.flag
    · simp only [gs, List.map_cons, List.map_nil, List.mem_cons, List.not_mem_nil, or_false] at hflag
      rcases hflag with rfl | rfl | rfl | rfl | rfl | rfl <;> rfl
    · have hother : ∀ g ∈ gs, ¬decide (g.flag = flag) = true := fun g hg h =>
        hflag (of_decide_eq_true h ▸ List.mem_map_of_mem hg)
      have hsub : gs' ⊆ gs := by decide
      rw [List.filter_eq_nil_iff.2 hother, List.filter_eq_nil_iff.2 fun g hg => hother g (hsub hg)]
  have hread := parse_reads_groups.2 gs hgs
  refine ⟨hgs, hsame, (hread.1 _).2 ⟨rfl, rfl, ?_⟩, hread.2 gs' hsame⟩
  exact ⟨rfl, rfl, rfl, rfl, rfl, .some hcolor, hsize, rfl, rfl, rfl, rfl⟩

end Whisker.Command
