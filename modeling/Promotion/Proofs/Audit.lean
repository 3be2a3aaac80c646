import Mathlib.Data.List.Infix
import Promotion.Proofs.Manifest.Document
import Promotion.CommandLine
import Promotion.Proofs.Review

/-!
# `Promotion.Proofs.Audit`: when an audit trail can be read back

A line of the trail sets a name and two versions between fixed separators, as they
are. Names are any texts and so are qualifiers, so a line can be taken apart again
only where they leave the separators alone.

* `Text.append_separator_inj`: a text is cut at the last occurrence of a separator,
  if that does not occur in what comes after it.
* `Evaluation.told_eq_of_line`: legible lines that are the same tell the same.
* `Review.count_shown_events_eq_iff`: the log has one line for each message of the
  trail as long as no message has a line feed.
* `Review.evaluations_against`: the packages that a review decides upon.
* `trail_reads_back`: all of this for reviews against packages of a manifest.
* `not_forall_trail_reads_back`: without the two conditions it fails.

The separators are looked for from the end of a line. From the front the name, which
is nothing but a text, would hide where it ends; from the end only the versions are
in the way, and their numbers are in no separator.
-/

set_option autoImplicit false

namespace Promotion

/-! ### Cutting at the last separator -/

namespace Text

variable {sep front back front' back' : List Char}

/-- No end of a separator is the beginning of it, other than the whole. -/
def Unbordered (sep : List Char) : Prop :=
  ∀ t ∈ sep.tails, t ≠ [] → t ≠ sep → ¬ t <+: sep

instance : Decidable (Unbordered sep) :=
  inferInstanceAs (Decidable (∀ t ∈ sep.tails, t ≠ [] → t ≠ sep → ¬ t <+: sep))

/-- A separator does not begin earlier in one of two equal texts than in the other,
if it does not occur behind the earlier place. -/
theorem length_le_of_append_separator (hsep : Unbordered sep) (hback : ¬ sep <:+: back)
    (h : front ++ (sep ++ back) = front' ++ (sep ++ back')) : front'.length ≤ front.length := by
  by_contra hlt
  have hprefix : front <+: front' :=
    List.prefix_of_prefix_length_le ⟨_, h⟩ (List.prefix_append _ _) (by omega)
  obtain ⟨mid, rfl⟩ := hprefix
  rw [List.append_assoc, List.append_cancel_left_eq] at h
  have hmid : mid ≠ [] := by
    rintro rfl
    simp at hlt
  have hmidPrefix : mid <+: sep ++ back := ⟨_, h.symm⟩
  -- The second separator begins behind the first one, or inside it.
  rcases Nat.le_total sep.length mid.length with hlength | hlength
  · obtain ⟨mid, rfl⟩ : sep <+: mid :=
      List.prefix_of_prefix_length_le (List.prefix_append _ _) hmidPrefix hlength
    rw [List.append_assoc, List.append_cancel_left_eq] at h
    exact hback ⟨mid, back', by rw [h, List.append_assoc]⟩
  · obtain ⟨tail, rfl⟩ : mid <+: sep :=
      List.prefix_of_prefix_length_le hmidPrefix (List.prefix_append _ _) hlength
    rw [List.append_assoc, List.append_cancel_left_eq] at h
    have htail : tail <+: mid ++ tail :=
      List.prefix_of_prefix_length_le ⟨_, h⟩ (List.prefix_append _ _) (by simp)
    by_cases hnil : tail = []
    · subst hnil
      rw [List.append_nil] at h hback
      exact hback ⟨[], back', by simpa using h.symm⟩
    · refine hsep tail ((List.mem_tails _ _).mpr (List.suffix_append _ _)) hnil ?_ htail
      intro heq
      have hsame := congrArg List.length heq
      rw [List.length_append] at hsame
      exact hmid (List.length_eq_zero_iff.mp (by omega))

/-- A text is cut at the last occurrence of a separator. -/
theorem append_separator_inj (hsep : Unbordered sep) (hback : ¬ sep <:+: back)
    (hback' : ¬ sep <:+: back') (h : front ++ (sep ++ back) = front' ++ (sep ++ back')) :
    front = front' ∧ back = back' := by
  have hlength : front.length = front'.length :=
    Nat.le_antisymm (length_le_of_append_separator hsep hback' h.symm)
      (length_le_of_append_separator hsep hback h)
  obtain ⟨hfront, hrest⟩ := List.append_inj h hlength
  exact ⟨hfront, List.append_cancel_left hrest⟩

end Text

/-! ### Lines -/

namespace Evaluation

variable {e e' : Evaluation}

/-- What a line of the trail is there to tell: the verdict, the name of the package,
its version, and the version in the destination or `missing`. -/
def told (e : Evaluation) : Verdict × String × String × String :=
  (e.verdict, e.source.name, e.source.version.text, e.destinationText)

/-- The versions of a line leave its separators alone. -/
structure Legible (e : Evaluation) : Prop where
  source : ¬ " (".toList <:+: e.source.version.text.toList
  destination : ¬ ") > (".toList <:+: e.destinationText.toList

/-- The parts of a line, the one inside the other in the order in which they come off. -/
theorem toList_line (e : Evaluation) :
    e.line.toList = "PACKAGE | ".toList ++ (e.verdict.word.toList ++ (" | ".toList ++
      (((e.source.name.toList ++ (" (".toList ++ e.source.version.text.toList)) ++
        (") > (".toList ++ e.destinationText.toList)) ++ ")".toList))) := by
  -- The equation of `line`, which `simp` would use, takes Lean many seconds to prove.
  delta line
  simp only [toString, String.toList_append, List.append_assoc]

/-- All verdicts are words of one length. -/
theorem length_word (v : Verdict) : v.word.toList.length = 4 := by
  cases v <;> rfl

/-- The verdicts have different words. -/
theorem eq_of_word {v v' : Verdict} (h : v.word.toList = v'.word.toList) : v = v' := by
  cases v <;> cases v' <;> first | rfl | exact absurd h (by decide)

/-- Legible lines that are the same tell the same. -/
theorem told_eq_of_line (h : e.Legible) (h' : e'.Legible) (heq : e.line = e'.line) :
    e.told = e'.told := by
  have hlist := congrArg String.toList heq
  rw [toList_line, toList_line] at hlist
  obtain ⟨hword, hrest⟩ := List.append_inj (List.append_cancel_left hlist)
    ((length_word _).trans (length_word _).symm)
  -- The words are equally long, and so the frames of both lines cancel.
  have hbody := List.append_cancel_right (List.append_cancel_left hrest)
  obtain ⟨hsource, hdestination⟩ :=
    Text.append_separator_inj (by decide) h.destination h'.destination hbody
  obtain ⟨hname, hversion⟩ := Text.append_separator_inj (by decide) h.source h'.source hsource
  rw [told, told, eq_of_word hword, String.toList_injective hname,
    String.toList_injective hversion, String.toList_injective hdestination]

/-- The characters that every line may have. -/
def fixed : List Char := "PACKAGE | PASS SKIP FAIL () > missing".toList

/-- Any other character gets into a line with the name or with one of the versions. -/
theorem mem_line_iff {c : Char} (hc : c ∉ fixed) :
    c ∈ e.line.toList ↔ c ∈ e.source.name.toList ∨ c ∈ e.source.version.text.toList ∨
      c ∈ e.destinationText.toList := by
  -- Such a character is in none of the fixed parts.
  have hpart {part : List Char} (hpart : part ⊆ fixed) : c ∉ part := fun h => hc (hpart h)
  have hword : c ∉ e.verdict.word.toList := by
    cases e.verdict <;> exact hpart (by decide)
  have hhead : c ∉ "PACKAGE | ".toList := hpart (by decide)
  have hbar : c ∉ " | ".toList := hpart (by decide)
  have hopen : c ∉ " (".toList := hpart (by decide)
  have harrow : c ∉ ") > (".toList := hpart (by decide)
  have hclose : c ∉ ")".toList := hpart (by decide)
  simp only [toList_line, List.mem_append, hword, hhead, hbar, hopen, harrow, hclose, false_or,
    or_false, or_assoc]

end Evaluation

/-! ### The trail in the log -/

namespace Event

/-- What a control character becomes has no line feed. -/
theorem newline_notMem_visible {c : Char} (hc : c ≠ '\n') : '\n' ∉ visible c := by
  have hdigits : ∀ n ∈ List.range' 0x80 32, '\n' ∉ Nat.toDigits 16 n := by decide
  have hcode (hrange : (0x80 ≤ c.toNat && c.toNat ≤ 0x9f) = true) :
      '\n' ∉ Nat.toDigits 16 c.toNat := by
    rw [Bool.and_eq_true, decide_eq_true_eq, decide_eq_true_eq] at hrange
    exact hdigits _ (List.mem_range'_1.mpr (by omega))
  unfold visible
  split_ifs with _ _ _ _ _ hrange
  case _ | _ | _ | _ | _ => decide
  · simp [hcode hrange]
  · simpa using Ne.symm hc

/-- The log keeps the line feeds of a message. -/
theorem count_flatMap_visible (message : List Char) :
    (message.flatMap visible).count '\n' = message.count '\n' := by
  induction message with
  | nil => rfl
  | cons c message ih =>
    rw [List.flatMap_cons, List.count_append, ih, List.count_cons, Nat.add_comm]
    congr 1
    by_cases hc : c = '\n'
    · subst hc
      decide
    · rw [List.count_eq_zero.mpr (newline_notMem_visible hc), if_neg (by simpa using hc)]

/-- A message is one line of the log, and one more for each of its line feeds. -/
theorem count_line_info (target message : String) :
    (info target message []).line.toList.count '\n' = message.toList.count '\n' + 1 := by
  -- The level is padded with spaces and has no line break.
  have hlevel : (info target message []).levelText.toList.count '\n' = 0 := by
    have hpadded :
        ("".pushn ' ' (5 - Level.info.name.length) ++ Level.info.name).toList.count '\n' = 0 := by
      decide
    exact hpadded
  have hline : (info target message []).line = (info target message []).levelText ++ " "
      ++ String.ofList (message.toList.flatMap visible) ++ "\n" := by
    simp [line, info, toString]
  rw [hline]
  simp [List.count_append, hlevel, count_flatMap_visible]

end Event

namespace Review

/-- The events that a review leaves in the log. -/
def events (r : Review) : List Event :=
  r.trail.map fun line => .info SyncArguments.auditTarget line []

/-- The trail takes one line of the log for each message and one more for each line
feed in them. -/
theorem count_shown_events {filter : LogFilter} {r : Review}
    (hshown : ∀ event ∈ r.events, filter.allows event = true) :
    (CommandLine.shown filter r.events).toList.count '\n'
      = (r.trail.flatMap String.toList).count '\n' + r.trail.length := by
  rw [CommandLine.shown, List.filter_eq_self.mpr hshown, events]
  induction r.trail with
  | nil => rfl
  | cons line lines ih =>
    simp only [List.map_cons, String.join_cons, String.toList_append, List.count_append,
      Event.count_line_info, List.flatMap_cons, List.length_cons, ih]
    omega

/-- So there are no more lines than messages just when no message has a line feed. -/
theorem count_shown_events_eq_iff {filter : LogFilter} {r : Review}
    (hshown : ∀ event ∈ r.events, filter.allows event = true) :
    (CommandLine.shown filter r.events).toList.count '\n' = r.trail.length ↔
      ∀ line ∈ r.trail, '\n' ∉ line.toList := by
  simp only [count_shown_events hshown, Nat.add_eq_right, List.count_eq_zero, List.mem_flatMap,
    not_exists, not_and]

/-! ### What was decided upon -/

/-- A review decides upon source packages in order, each against the latest package
of its name, and upon all of them if it does not fail. -/
theorem evaluations_against (policy : FailurePolicy) (latest sources : List Package) :
    ∃ rest, sources = (against policy latest sources).evaluations.map Evaluation.source ++ rest ∧
      (∀ cleared, (against policy latest sources).outcome = .ok cleared → rest = []) ∧
      ∀ e ∈ (against policy latest sources).evaluations,
        e.destination = Latest.find? latest e.source.name := by
  -- By induction on the sources; the policy matters only at one that is not cleared.
  induction sources with
  | nil => exact ⟨[], rfl, fun _ _ => rfl, nofun⟩
  | cons source sources ih =>
    obtain ⟨rest, hsources, hrest, hdestination⟩ := ih
    cases hclears : clears latest source with
    | true =>
      rw [against_cons_of_clears policy sources hclears]
      refine ⟨rest, congrArg (source :: ·) hsources, fun cleared h => ?_,
        List.forall_mem_cons.mpr ⟨rfl, hdestination⟩⟩
      obtain ⟨_, hcleared, -⟩ := map_eq_ok_iff.mp h
      exact hrest _ hcleared
    | false =>
      obtain ⟨current, hfind, hmay⟩ := exists_find?_of_not_clears hclears
      cases policy with
      | skip =>
        rw [against_skip_cons_of_not_clears sources hfind hmay]
        exact ⟨rest, congrArg (source :: ·) hsources, hrest,
          List.forall_mem_cons.mpr ⟨hfind.symm, hdestination⟩⟩
      | abort =>
        rw [against_abort_cons_of_not_clears sources hfind hmay]
        exact ⟨sources, rfl, nofun, List.forall_mem_singleton.mpr hfind.symm⟩

/-- How far the trail of a review of source packages can be read back. -/
structure ReadsBack (r : Review) (source : List Package) : Prop where
  /-- There is one message for each source package in order, and a review that does
  not fail has reached them all. -/
  order : ∃ rest, source = r.evaluations.map Evaluation.source ++ rest ∧
    ∀ cleared, r.outcome = .ok cleared → rest = []
  /-- Where the log shows the trail it takes one line for the header and one for each
  package, unless there is a line feed in a name or in a version. -/
  lines : ∀ filter : LogFilter, (∀ event ∈ r.events, filter.allows event = true) →
    ((CommandLine.shown filter r.events).toList.count '\n' = r.evaluations.length + 1 ↔
      ∀ e ∈ r.evaluations, '\n' ∉ e.source.name.toList ∧
        '\n' ∉ e.source.version.text.toList ∧ '\n' ∉ e.destinationText.toList)
  /-- Every other kind of line break comes from there as well. -/
  breaks : ∀ e ∈ r.evaluations, ∀ c ∉ Evaluation.fixed, c ∈ e.line.toList ↔
    c ∈ e.source.name.toList ∨ c ∈ e.source.version.text.toList ∨ c ∈ e.destinationText.toList
  /-- No version is called `missing`. -/
  missing : ∀ e ∈ r.evaluations, e.destinationText = "missing" ↔ e.destination = none
  /-- Of all evaluations with legible versions only those that tell the same have the
  same line. -/
  told : ∀ e ∈ r.evaluations, e.Legible → ∀ e' : Evaluation, e'.Legible → e.line = e'.line →
    e.told = e'.told

end Review

/-- The destination's version is shown as `missing` only where there is none. -/
theorem Evaluation.destinationText_eq_missing_iff {e : Evaluation}
    (hversion : ∀ p ∈ e.destination, p.version.Obtained) :
    e.destinationText = "missing" ↔ e.destination = none := by
  obtain ⟨verdict, source, destination⟩ := e
  cases destination with
  | none => exact ⟨fun _ => rfl, fun _ => rfl⟩
  | some p =>
    refine ⟨fun h => ?_, nofun⟩
    -- The text of a version is read as that version, and `missing` is none.
    have hparse := Version.parse_text (hversion p rfl)
    rw [show p.version.text = "missing" from h] at hparse
    have hnone : (Version.parse "missing").toOption = none := by decide
    rw [hparse] at hnone
    cases hnone

/-- The trail can be read back as far as names and versions let it. The destination
was read from a manifest; any source and either strategy will do. There is one
message for each package, in one line each unless a name or a version has a line
feed. A line tells the verdict, the name and both versions as long as the versions
have nothing in them that looks like the separators of the line, whatever the names
are. -/
theorem trail_reads_back {format : Format} {text : String} {destination : List Package}
    (hread : Manifest.read format text = .ok destination) (strategy : Strategy)
    (source : List Package) : (strategy.review source destination).ReadsBack source := by
  obtain ⟨rest, hsource, hrest, hdestination⟩ :=
    Review.evaluations_against strategy.policy (latestPerName destination) source
  -- The five parts, of which the second one counts the line breaks.
  refine ⟨⟨rest, hsource, hrest⟩, fun filter hshown => ?_, fun e _ c => Evaluation.mem_line_iff,
    fun e he => Evaluation.destinationText_eq_missing_iff fun p hp => ?_,
    fun e _ h e' h' => Evaluation.told_eq_of_line h h'⟩
  · have hheader : '\n' ∉ Audit.header.toList := by decide
    have hcount := Review.count_shown_events_eq_iff hshown
    rw [Review.trail, Audit.trail, List.length_cons, List.length_map, List.forall_mem_cons,
      and_iff_right hheader, List.forall_mem_map] at hcount
    simpa only [Evaluation.mem_line_iff (show '\n' ∉ Evaluation.fixed by decide), not_or]
      using hcount
  · rw [hdestination e he] at hp
    exact Manifest.obtained_of_read hread p (isLatest_of_find? hp).mem

/-- A trail against two packages of a manifest, of which the source's second package
repeats one. -/
theorem trail_reads_back_odd :
    Manifest.read .yaml (Manifest.print .yaml Manifest.oddPackages) = .ok Manifest.oddPackages ∧
    (Strategy.skipOldVersions.review (⟨"x (1) >", .ofNat 2, false⟩ :: Manifest.oddPackages)
      Manifest.oddPackages).ReadsBack (⟨"x (1) >", .ofNat 2, false⟩ :: Manifest.oddPackages) :=
  have hread : Manifest.read .yaml (Manifest.print .yaml Manifest.oddPackages)
      = .ok Manifest.oddPackages := Manifest.read_print Manifest.oddPackages_obtained
  ⟨hread, trail_reads_back hread _ _⟩

/-- Two packages whose lines in the trail of a review without a destination are the
same, and one whose line is broken. -/
def maskedPackages : List Package :=
  [⟨"x", ⟨[1], some "a) > (2-b", "1-a) > (2-b"⟩, false⟩,
    ⟨"x (1-a) >", ⟨[2], some "b", "2-b"⟩, false⟩, ⟨"a\nb", ⟨[1], none, "1"⟩, false⟩]

/-- The masked packages have versions that the program can have. -/
theorem maskedPackages_obtained : ∀ p ∈ maskedPackages, p.version.Obtained := by
  have hfirst : Version.parse "1-a) > (2-b" = .ok ⟨[1], some "a) > (2-b", "1-a) > (2-b"⟩ := by
    decide
  have hsecond : Version.parse "2-b" = .ok ⟨[2], some "b", "2-b"⟩ := by decide
  have hthird : Version.parse "1" = .ok ⟨[1], none, "1"⟩ := by decide
  exact List.forall_mem_cons.mpr ⟨.parsed hfirst, List.forall_mem_cons.mpr
    ⟨.parsed hsecond, List.forall_mem_singleton.mpr (.parsed hthird)⟩⟩

/-- Neither is a trail free of line feeds, nor are lines the same only where they
tell the same: a name or the qualifier of a version can look like what stands
around it. -/
theorem not_forall_trail_reads_back :
    ¬ (∀ (format format' : Format) (text text' : String) (source destination : List Package),
      Manifest.read format text = .ok source → Manifest.read format' text' = .ok destination →
        ∀ strategy : Strategy, ∀ line ∈ (strategy.review source destination).trail,
          '\n' ∉ line.toList) ∧
    ¬ (∀ (format format' : Format) (text text' : String) (source destination : List Package),
      Manifest.read format text = .ok source → Manifest.read format' text' = .ok destination →
        ∀ strategy : Strategy, ∀ e ∈ (strategy.review source destination).evaluations,
          ∀ e' ∈ (strategy.review source destination).evaluations, e.line = e'.line →
            e.told = e'.told) := by
  have hsource : Manifest.read .yaml (Manifest.print .yaml maskedPackages) = .ok maskedPackages :=
    Manifest.read_print maskedPackages_obtained
  have hdestination : Manifest.read .yaml (Manifest.print .yaml []) = .ok [] :=
    Manifest.read_print nofun
  -- A name with a line break breaks its line; two packages that mask each other have one line.
  constructor
  · intro h
    have hbroken := h _ _ _ _ _ _ hsource hdestination .skipOldVersions _
      (List.mem_cons_of_mem _ (List.mem_cons_of_mem _ (List.mem_cons_of_mem _ List.mem_cons_self)))
    exact hbroken (by decide)
  · intro h
    have hsame := h _ _ _ _ _ _ hsource hdestination .skipOldVersions _ List.mem_cons_self _
      (List.mem_cons_of_mem _ List.mem_cons_self) (by decide)
    exact absurd hsame (by decide)

end Promotion
