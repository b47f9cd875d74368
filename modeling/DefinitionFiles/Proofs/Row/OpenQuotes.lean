import DefinitionFiles.Proofs.Row.Joining
import DefinitionFiles.Proofs.Row.Limits
import DefinitionFiles.Proofs.Row.TwoPhases

namespace DefinitionFiles

open Text

def brokenLines (texts : List String) : List Char := ['\n'].intercalate (texts.map String.toList)

theorem brokenLines_concat {texts : List String} (h : texts ≠ []) (text : String) :
    brokenLines (texts ++ [text]) = brokenLines texts ++ '\n' :: text.toList := by
  induction texts with
  | nil => exact absurd rfl h
  | cons first texts ih =>
      cases texts with
      | nil => simp [brokenLines, List.intercalate_cons_cons]
      | cons second texts =>
          have hrest := ih (by simp)
          simp only [brokenLines, List.cons_append, List.map_cons, List.intercalate_cons_cons,
            List.append_assoc] at hrest ⊢
          rw [hrest]

theorem count_brokenLines {texts : List String} (h : texts ≠ [])
    (htexts : ∀ text ∈ texts, '\n' ∉ text.toList) :
    (brokenLines texts).count '\n' + 1 = texts.length := by
  induction texts with
  | nil => exact absurd rfl h
  | cons first texts ih =>
      obtain ⟨hfirst, hrest⟩ := List.forall_mem_cons.1 htexts
      have hnone := List.count_eq_zero.2 hfirst
      cases texts with
      | nil => simpa [brokenLines] using hnone
      | cons second texts =>
          have hcount := ih (by simp) hrest
          simp only [brokenLines, List.map_cons, List.intercalate_cons_cons, List.count_append,
            hnone] at hcount ⊢
          simp only [List.length_cons] at hcount ⊢
          simp only [List.count_singleton_self]
          omega

/-- The text of some lines ends in a quoted section without an end, the mark of which stands
after so many line breaks. -/
def OpenAfter (texts : List String) (breaks : Nat) : Prop :=
  ∃ segments before, Cut (brokenLines texts) segments ∧ opening? segments = some before ∧
    before.count '\n' = breaks

/-- Lines that belong to one row up to the end of the last of them, where a section is open: so
one is after each of them, for there the row would end otherwise. -/
structure OpenRow (texts : List String) (breaks : Nat) : Prop where
  begins : ∀ text ∈ texts.head?, startsComment text = false
  goesOn : ∀ taken, taken <+: texts → taken ≠ [] → ∃ other, OpenAfter taken other
  opened : OpenAfter texts breaks

theorem OpenAfter.unique {texts : List String} {breaks other : Nat} (h : OpenAfter texts breaks)
    (h' : OpenAfter texts other) : breaks = other := by
  obtain ⟨segments, before, hcut, hopening, rfl⟩ := h
  obtain ⟨segments', before', hcut', hopening', rfl⟩ := h'
  obtain rfl := hcut.unique hcut'
  rw [Option.some.inj (hopening.symm.trans hopening')]

theorem OpenAfter.brokenLines_ne_nil {texts : List String} {breaks : Nat}
    (h : OpenAfter texts breaks) : brokenLines texts ≠ [] := by
  obtain ⟨segments, before, hcut, hopening, -⟩ := h
  obtain ⟨body, hline⟩ := hcut.line_of_opening hopening
  simp [hline]

theorem OpenAfter.ne_nil {texts : List String} {breaks : Nat} (h : OpenAfter texts breaks) :
    texts ≠ [] := by
  rintro rfl
  exact h.brokenLines_ne_nil rfl

theorem OpenAfter.text_ne_empty {text : String} {breaks : Nat} (h : OpenAfter [text] breaks) :
    text ≠ "" := by
  rintro rfl
  exact h.brokenLines_ne_nil (by simp [brokenLines])

theorem OpenRow.init {texts : List String} {text : String} {breaks : Nat}
    (h : OpenRow (texts ++ [text]) breaks) (hne : texts ≠ []) : ∃ other, OpenRow texts other := by
  obtain ⟨other, hopened⟩ := h.goesOn texts (List.prefix_append texts [text]) hne
  refine ⟨other, ⟨?_, ?_, hopened⟩⟩
  · rw [← List.head?_append_of_ne_nil texts hne]
    exact h.begins
  · exact fun taken hearlier => h.goesOn taken (hearlier.trans (List.prefix_append texts [text]))

namespace Split

variable {split : Split} {openedOn lineNo : Nat} {line before : List Char}
  {segments : List Segment}

theorem takeLine_quoted (hplace : split.place = .quoted openedOn) (lineNo : Nat) (text : String) :
    ∃ fields held, split.takeLine lineNo text =
      scan lineNo text.toList ⟨fields, held, .quoted openedOn⟩ := by
  obtain ⟨fields, held, place⟩ := split
  obtain rfl : place = .quoted openedOn := hplace
  have hjoined := place_joinLine ⟨fields, held, .quoted openedOn⟩
  generalize hnext : joinLine ⟨fields, held, .quoted openedOn⟩ = next at hjoined
  obtain ⟨fields', held', place'⟩ := next
  obtain rfl : place' = .quoted openedOn := hjoined
  exact ⟨fields', held', by simp only [takeLine, hnext, Split.line]⟩

theorem place_scan_cut (hcut : Cut line segments) (lineNo : Nat) (fields : Array String) :
    let next := scan lineNo line ⟨fields, "", .outside true⟩
    match opening? segments with
    | none => ∃ fieldStart, next.place = .outside fieldStart
    | some _ => next.place = .quoted lineNo := by
  have hscan := scan_cut hcut lineNo fields
  rw [← hcut.isSome_opening?] at hscan
  cases hopening : opening? segments with
  | some before => simpa [hopening] using hscan
  | none =>
      rw [hopening, if_neg (by simp)] at hscan
      obtain ⟨fieldStart, hscan⟩ := hscan
      exact ⟨fieldStart, by rw [hscan]⟩

theorem scan_closed {body inside after : List Char} (hbefore : ∀ c ∈ before, isBlank c = true)
    (hbody : Paired (body ++ inside)) (hinside : Paired inside)
    (hafter : after.head? ≠ some quoteMark) (lineNo openedOn : Nat) (fields : Array String)
    (held : String) :
    ∃ segments, Cut (before ++ quoteMark :: (body ++ (inside ++ quoteMark :: after))) segments ∧
      let next := scan lineNo (inside ++ quoteMark :: after) ⟨fields, held, .quoted openedOn⟩
      match opening? segments with
      | none => ∃ fieldStart, next.place = .outside fieldStart
      | some start => ∃ shown rest, after = shown ++ quoteMark :: rest ∧
          start = before ++ quoteMark :: (body ++ (inside ++ quoteMark :: shown)) ∧
          next.place = .quoted lineNo := by
  obtain ⟨field, tail, rfl, hfield, htail⟩ := exists_separator after
  have hfirst : field.head? ≠ some quoteMark := by
    cases field with
    | nil => simp
    | cons c rest => exact hafter
  have hsound : (Segment.quoted before (body ++ inside) field).Sound :=
    .quoted _ _ _ hbefore hbody hfirst hfield
  rw [scan_paired hinside, scan_quoted_mark hafter, scan_literal hfield]
  rcases htail with rfl | htail
  · refine ⟨_, by simpa [Segment.text] using Cut.last _ hsound, ?_⟩
    simp [opening?, scan_nil, endLine, finishField]
  · obtain ⟨rest, rfl⟩ := List.head?_eq_some_iff.1 htail
    obtain ⟨segments, hcut⟩ := exists_cut rest
    refine ⟨_, by simpa [Segment.text] using Cut.more _ _ _ hsound rfl hcut, ?_⟩
    have hplace := place_scan_cut hcut lineNo
      (fields.push (trim (held ++ String.ofList (halve inside) ++ String.ofList field)))
    rw [scan_separator, opening?_cons _ hcut.ne_nil]
    cases hopening : opening? segments with
    | none => simpa [hopening] using hplace
    | some start =>
        obtain ⟨more, rfl⟩ := hcut.line_of_opening hopening
        rw [hopening] at hplace
        exact ⟨field ++ fieldSeparator :: start, more, by simp, by simp [Segment.text], hplace⟩

theorem takeLine_open (hplace : split.place = .quoted openedOn) (hcut : Cut line segments)
    (hopening : opening? segments = some before) (lineNo : Nat) (text : String) :
    let next := split.takeLine lineNo text
    ∃ segments', Cut (line ++ '\n' :: text.toList) segments' ∧
      match opening? segments' with
      | none => ∃ fieldStart, next.place = .outside fieldStart
      | some before' =>
          (before' = before ∧ next.place = .quoted openedOn) ∨
          ∃ shown rest, text.toList = shown ++ rest ∧ before' = line ++ '\n' :: shown ∧
            next.place = .quoted lineNo := by
  intro next
  obtain ⟨fields, held, hnext⟩ := takeLine_quoted hplace lineNo text
  obtain ⟨start, first, last, rfl, rfl, hsound, hrecut⟩ := hcut.recut
  have hlast := (hrecut _ _ (.last last hsound)).2
  rw [hopening] at hlast
  obtain ⟨blanks, hblanks, rfl⟩ := Option.map_eq_some_iff.1 hlast.symm
  cases hsound with
  | plain => cases hblanks
  | quoted => cases hblanks
  | opened before body hbefore hbody =>
      cases hblanks
      have hbreak : Paired (body ++ ['\n']) := hbody.append (.char '\n' [] (by decide) .nil)
      simp only [next, hnext]
      rcases paired_or_closed text.toList with hinside | ⟨inside, after, htext, hinside, hafter⟩
      · -- the line is all inside the section
        have hall : Paired (body ++ ['\n'] ++ text.toList) := hbreak.append hinside
        obtain ⟨hcut', hopening'⟩ := hrecut _ _ (.last _ (.opened blanks _ hbefore hall))
        refine ⟨first ++ [.opened blanks (body ++ ['\n'] ++ text.toList)],
          by simpa [Segment.text] using hcut', ?_⟩
        rw [hopening']
        exact .inl ⟨rfl, by rw [scan_all_paired hinside]⟩
      · obtain ⟨segments', hcut', hmatch⟩ := scan_closed hbefore (hbreak.append hinside)
          hinside hafter lineNo openedOn fields held
        obtain ⟨hcut', hopening'⟩ := hrecut _ _ hcut'
        rw [htext]
        refine ⟨first ++ segments', by simpa [Segment.text] using hcut', ?_⟩
        rw [hopening']
        cases hstart : opening? segments' with
        | none => simpa [hstart] using hmatch
        | some start' =>
            rw [hstart] at hmatch
            obtain ⟨shown, rest, rfl, rfl, hquoted⟩ := hmatch
            exact .inr ⟨inside ++ quoteMark :: shown, quoteMark :: rest, by simp,
              by simp [Segment.text], hquoted⟩

theorem takeLine_first (lineNo : Nat) (text : String) :
    let next := takeLine lineNo text {}
    ∃ segments, Cut text.toList segments ∧
      match opening? segments with
      | none => ∃ fieldStart, next.place = .outside fieldStart
      | some before => before <+: text.toList ∧ next.place = .quoted lineNo := by
  obtain ⟨segments, hcut⟩ := exists_cut text.toList
  have hline := line_cut hcut lineNo
  rw [← hcut.isSome_opening?] at hline
  refine ⟨segments, hcut, ?_⟩
  cases hopening : opening? segments with
  | none =>
      rw [hopening, if_neg (by simp)] at hline
      obtain ⟨fieldStart, hline⟩ := hline
      exact ⟨fieldStart, by simp only [takeLine, hline]⟩
  | some before =>
      simp only [hopening, Option.isSome_some, if_true] at hline
      obtain ⟨body, hbody⟩ := hcut.line_of_opening hopening
      exact ⟨⟨_, hbody.symm⟩, hline⟩

end Split

theorem place_iff_openAfter {place : SplitPlace} {texts : List String} {segments : List Segment}
    {first : Nat} (hcut : Cut (brokenLines texts) segments)
    (hplace : match opening? segments with
      | none => ∃ fieldStart, place = .outside fieldStart
      | some before => place = .quoted (first + before.count '\n')) (openedOn : Nat) :
    place = .quoted openedOn ↔ ∃ breaks, OpenAfter texts breaks ∧ openedOn = first + breaks := by
  cases hopening : opening? segments with
  | none =>
      rw [hopening] at hplace
      obtain ⟨fieldStart, rfl⟩ := hplace
      constructor
      · rintro ⟨⟩
      · rintro ⟨breaks, ⟨others, before, hothers, hbefore, -⟩, -⟩
        obtain rfl := hothers.unique hcut
        rw [hopening] at hbefore
        cases hbefore
  | some before =>
      rw [hopening] at hplace
      subst hplace
      constructor
      · rintro ⟨⟩
        exact ⟨_, ⟨segments, before, hcut, hopening, rfl⟩, rfl⟩
      · rintro ⟨breaks, h, rfl⟩
        rw [h.unique ⟨segments, before, hcut, hopening, rfl⟩]

def LineRead.ofText (text : String) : LineRead := .line (encodeUtf8 text)

/-- Where the lines so far leave a section open, or there are none, quotes are open after one more
just if a section is, and they were opened on the line of its mark. -/
theorem place_takeLine_iff {split : Split} {line : Nat} {texts : List String} {text : String}
    (hsofar : texts = [] ∧ split = {} ∨
      ∃ breaks, OpenAfter texts breaks ∧ split.place = .quoted (line + 1 + breaks))
    (hbreaks : ∀ other ∈ texts ++ [text], '\n' ∉ other.toList) (openedOn : Nat) :
    (split.takeLine (line + texts.length + 1) text).place = .quoted openedOn ↔
      ∃ breaks, OpenAfter (texts ++ [text]) breaks ∧ openedOn = line + 1 + breaks := by
  obtain ⟨htexts, htext⟩ := List.forall_mem_append.1 hbreaks
  have htext : '\n' ∉ text.toList := htext text (by simp)
  rcases hsofar with ⟨rfl, rfl⟩ | ⟨breaks, ⟨segments, before, hcut, hopening, rfl⟩, hplace⟩
  · obtain ⟨segments, hcut, hmatch⟩ := Split.takeLine_first (line + 1) text
    have hline : Cut (brokenLines [text]) segments := by simpa [brokenLines] using hcut
    refine place_iff_openAfter hline ?_ openedOn
    cases hopening : opening? segments with
    | none =>
        rw [hopening] at hmatch
        exact hmatch
    | some before =>
        rw [hopening] at hmatch
        have hnone : before.count '\n' = 0 :=
          List.count_eq_zero.2 fun hm => htext (hmatch.1.subset hm)
        simp only [hnone]
        exact hmatch.2
  · have hne : texts ≠ [] := OpenAfter.ne_nil ⟨segments, before, hcut, hopening, rfl⟩
    obtain ⟨segments', hcut', hmatch⟩ :=
      Split.takeLine_open hplace hcut hopening (line + texts.length + 1) text
    rw [← brokenLines_concat hne] at hcut'
    refine place_iff_openAfter hcut' ?_ openedOn
    cases hopening' : opening? segments' with
    | none =>
        rw [hopening'] at hmatch
        exact hmatch
    | some before' =>
        rw [hopening'] at hmatch
        rcases hmatch with ⟨rfl, hquoted⟩ | ⟨shown, rest, hshown, rfl, hquoted⟩
        · exact hquoted
        · have hnone : shown.count '\n' = 0 :=
            List.count_eq_zero.2 fun hm => htext (hshown ▸ List.mem_append_left rest hm)
          have hcount := count_brokenLines hne htexts
          have hnumber : line + 1 + (brokenLines texts ++ '\n' :: shown).count '\n' =
              line + texts.length + 1 := by
            rw [List.count_append, List.count_cons_self, hnone]
            omega
          simp only [hnumber]
          exact hquoted

namespace Limits

variable {limits : Limits} {line : Nat} {lines later : List (List UInt8)} {taken : List String}
  {split : Split}

def SoFar (line : Nat) (taken : List String) (split : Split) : Prop :=
  taken = [] ∧ split = {} ∨
    ∃ breaks, OpenRow (taken.map trim) breaks ∧ split.place = .quoted (line + 1 + breaks)

theorem SoFar.place_iff (h : SoFar line taken split) {text : String}
    (hbreaks : ∀ other ∈ taken ++ [text], '\n' ∉ (trim other).toList) (openedOn : Nat) :
    (split.takeLine (line + taken.length + 1) (trim text)).place = .quoted openedOn ↔
      ∃ breaks, OpenAfter ((taken ++ [text]).map trim) breaks ∧ openedOn = line + 1 + breaks := by
  have hopen : taken.map trim = [] ∧ split = {} ∨ ∃ breaks, OpenAfter (taken.map trim) breaks ∧
      split.place = .quoted (line + 1 + breaks) :=
    h.imp (fun h => ⟨List.map_eq_nil_iff.2 h.1, h.2⟩)
      fun ⟨breaks, h, hplace⟩ => ⟨breaks, h.opened, hplace⟩
  have hall : ∀ other ∈ taken.map trim ++ [trim text], '\n' ∉ other.toList := by
    simpa [or_imp, forall_and] using hbreaks
  have hplace := place_takeLine_iff hopen hall openedOn
  rwa [List.length_map, ← List.map_singleton, ← List.map_append] at hplace

theorem SoFar.next (h : SoFar line taken split) {text : String}
    (hbreaks : ∀ other ∈ taken ++ [text], '\n' ∉ (trim other).toList)
    (hignores : split.ignores (trim text) = false) {openedOn : Nat}
    (hplace : (split.takeLine (line + taken.length + 1) (trim text)).place = .quoted openedOn) :
    SoFar line (taken ++ [text]) (split.takeLine (line + taken.length + 1) (trim text)) := by
  obtain ⟨breaks, hafter, rfl⟩ := (h.place_iff hbreaks openedOn).1 hplace
  refine .inr ⟨breaks, ⟨?_, ?_, hafter⟩, hplace⟩
  · rcases h with ⟨rfl, rfl⟩ | ⟨_, hrow, -⟩
    · simp only [Split.ignores, Bool.or_eq_false_iff] at hignores
      simpa using hignores.2
    · rw [List.map_append, List.head?_append_of_ne_nil _ hrow.opened.ne_nil]
      exact hrow.begins
  · intro earlier hearlier hne
    rw [List.map_append, List.map_singleton, List.prefix_concat_iff] at hearlier
    rcases hearlier with rfl | hearlier
    · exact ⟨breaks, by simpa using hafter⟩
    · rcases h with ⟨rfl, -⟩ | ⟨_, hrow, -⟩
      · exact absurd (List.prefix_nil.1 hearlier) hne
      · exact hrow.goesOn earlier hearlier hne

theorem Reaches.soFar (h : limits.Reaches line lines taken split later)
    (hbreaks : ∀ text ∈ taken, '\n' ∉ (trim text).toList) : SoFar line taken split := by
  induction h with
  | start => exact .inl ⟨rfl, rfl⟩
  | next taken split text later openedOn h hlength hcount hignores hplace ih =>
      have hsofar := ih fun other hother => hbreaks other (List.mem_append_left _ hother)
      exact hsofar.next hbreaks hignores hplace

theorem SoFar.ignores_eq_false (h : SoFar line taken split) {text : String} {breaks : Nat}
    (hopen : OpenRow ((taken ++ [text]).map trim) breaks) : split.ignores (trim text) = false := by
  rcases h with ⟨rfl, rfl⟩ | ⟨_, -, hplace⟩
  · have hempty : trim text ≠ "" := OpenAfter.text_ne_empty hopen.opened
    simpa [Split.ignores, hempty] using hopen.begins
  · simp [Split.ignores, hplace]

theorem exists_reaches {texts : List String} {breaks : Nat} (hopen : OpenRow (texts.map trim) breaks)
    (hbreaks : ∀ text ∈ texts, '\n' ∉ (trim text).toList)
    (hlengths : ∀ text ∈ texts, contentLength (encodeUtf8 text) ≤ limits.lineLength)
    (hcount : texts.length ≤ max 1 limits.linesPerRow) (line : Nat) (later : List (List UInt8)) :
    ∃ split, limits.Reaches line (texts.map encodeUtf8 ++ later) texts split later ∧
      split.place = .quoted (line + 1 + breaks) := by
  induction texts using List.reverseRecOn generalizing breaks later with
  | nil => exact absurd rfl hopen.opened.ne_nil
  | append_singleton texts text ih =>
      obtain ⟨hinit, hlast⟩ := List.forall_mem_append.1 hlengths
      rw [List.length_append, List.length_singleton] at hcount
      have hlines : (texts ++ [text]).map encodeUtf8 ++ later =
          texts.map encodeUtf8 ++ encodeUtf8 text :: later := by simp
      obtain ⟨split, h⟩ : ∃ split, limits.Reaches line (texts.map encodeUtf8 ++
          encodeUtf8 text :: later) texts split (encodeUtf8 text :: later) := by
        by_cases hne : texts = []
        · subst hne
          exact ⟨{}, .start⟩
        · rw [List.map_append, List.map_singleton] at hopen
          obtain ⟨other, hother⟩ := hopen.init (List.map_eq_nil_iff.not.2 hne)
          obtain ⟨split, h, -⟩ := ih hother (fun other ho => hbreaks other (by simp [ho])) hinit
            (by omega) (encodeUtf8 text :: later)
          exact ⟨split, h⟩
      have hsofar := h.soFar fun other ho => hbreaks other (by simp [ho])
      have hplace := (hsofar.place_iff hbreaks _).2 ⟨breaks, hopen.opened, rfl⟩
      rw [hlines]
      exact ⟨_, h.next _ _ _ _ _ (hlast text (by simp)) hcount (hsofar.ignores_eq_false hopen) hplace,
        hplace⟩

theorem exists_text_of_shown {read : LineRead} {text : String}
    (h : read.shown limits = .text text) :
    ∃ decoded, read = .line (encodeUtf8 decoded) ∧
      contentLength (encodeUtf8 decoded) ≤ limits.lineLength ∧ text = trim decoded := by
  cases read with
  | failed reason => cases h
  | line bytes =>
      by_cases hlong : limits.lineLength < contentLength bytes
      · simp [LineRead.shown, hlong] at h
      · cases hd : decodeUtf8 bytes with
        | error fault => simp [LineRead.shown, hlong, hd] at h
        | ok decoded =>
            obtain rfl := encodeUtf8_of_decodeUtf8 hd
            simp only [LineRead.shown, hlong, if_false, hd, ShownLine.text.injEq] at h
            exact ⟨decoded, rfl, Nat.not_lt.1 hlong, h.symm⟩

theorem step_failed {joined : Nat} {shown : ShownLine} {failure : TextFailure} {left : Split}
    (h : split.step limits joined line shown = .ended (.error failure) left) :
    (∀ openedOn, failure ≠ .unclosedQuote openedOn) ∧
      ∀ openedOn longest, failure = .manyLines openedOn longest →
        longest = limits.linesPerRow ∧ (∃ text, shown = .text text) ∧
          split.overdue? limits joined = some openedOn := by
  cases shown with
  | unreadable reason => cases h; simp
  | long length => cases h; simp
  | invalid reason => cases h; simp
  | text text =>
      simp only [Split.step] at h
      split at h
      · rename_i openedOn hoverdue
        cases h
        simp [hoverdue]
      · split at h
        · cases h
        · split at h <;> cases h

theorem Reaches.append (h : limits.Reaches line lines taken split later)
    (more : List (List UInt8)) : limits.Reaches line (lines ++ more) taken split (later ++ more) := by
  induction h with
  | start => exact .start
  | next taken split text later openedOn h hlength hcount hignores hplace ih =>
      exact .next taken split text (later ++ more) openedOn ih hlength hcount hignores hplace

/-- Reading a row goes past lines that leave a section open, up to one that ends it. -/
theorem exists_ended {rest : List LineRead} {fingerprint : Fingerprint} {failure : TextFailure}
    (h : limits.Reaches line (taken.map encodeUtf8) taken split [])
    (ho : (readRowFrom limits split taken.length (line + taken.length) fingerprint rest).outcome =
      .error failure) :
    ∃ texts later split', rest = texts.map LineRead.ofText ++ later ∧
      limits.Reaches line ((taken ++ texts).map encodeUtf8) (taken ++ texts) split' [] ∧
      match later with
      | [] => ∃ openedOn, split'.place = .quoted openedOn ∧ failure = .unclosedQuote openedOn
      | next :: _ => ∃ left, split'.step limits (taken ++ texts).length
          (line + (taken ++ texts).length) (next.shown limits) = .ended (.error failure) left := by
  induction rest generalizing taken split fingerprint with
  | nil =>
      refine ⟨[], [], split, rfl, by simpa using h, ?_⟩
      cases hplace : split.place with
      | outside fieldStart => simp [readRowFrom, Split.atEnd, hplace] at ho
      | quoted openedOn =>
          simp only [readRowFrom, Split.atEnd, hplace, Except.error.injEq] at ho
          exact ⟨openedOn, rfl, ho.symm⟩
  | cons first rest ih =>
      cases hstep : split.step limits taken.length (line + taken.length) (first.shown limits) with
      | ended outcome left =>
          rw [readRowFrom] at ho
          simp only [hstep] at ho
          subst ho
          exact ⟨[], first :: rest, split, rfl, by simpa using h, left, by simpa using hstep⟩
      | onward next =>
          obtain ⟨_, openedOn, hshown, hoverdue, hignores, rfl, hplace⟩ := Split.step_onward hstep
          obtain ⟨text, rfl, hlength, rfl⟩ := exists_text_of_shown hshown
          have hcount : taken.length < max 1 limits.linesPerRow := by
            rcases h.place with ⟨rfl, -⟩ | ⟨-, other, hquoted⟩
            · exact Nat.lt_of_lt_of_le Nat.zero_lt_one (Nat.le_max_left 1 _)
            · exact Nat.lt_of_lt_of_le (Split.overdue?_eq_none_iff.1 hoverdue other hquoted)
                (Nat.le_max_right 1 _)
          have hnext : limits.Reaches line ((taken ++ [text]).map encodeUtf8) (taken ++ [text])
              (split.takeLine (line + taken.length + 1) (trim text)) [] := by
            have hmore := (h.append [encodeUtf8 text]).next taken split text [] openedOn hlength
              hcount hignores hplace
            simpa using hmore
          rw [h.readRowFrom_next hlength hcount hignores hplace] at ho
          obtain ⟨texts, later, split', rfl, hreaches, hended⟩ := ih hnext ho
          rw [List.append_assoc] at hreaches hended
          exact ⟨text :: texts, later, split', rfl, hreaches, hended⟩

theorem readRowFrom_reached (h : limits.Reaches line lines taken split later)
    (fingerprint : Fingerprint) (more : List LineRead) :
    ∃ fingerprint', readRowFrom limits {} 0 line fingerprint (lines.map .line ++ more) =
      readRowFrom limits split taken.length (line + taken.length) fingerprint'
        (later.map .line ++ more) := by
  induction h with
  | start => exact ⟨fingerprint, rfl⟩
  | next taken split text later openedOn h hlength hcount hignores hplace ih =>
      obtain ⟨fingerprint', hread⟩ := ih
      refine ⟨fingerprint'.add (trim text), ?_⟩
      rw [hread, List.map_cons, List.cons_append, h.readRowFrom_next hlength hcount hignores hplace]

variable {rest : List LineRead}
  (hbreaks : ∀ text, LineRead.ofText text ∈ rest → '\n' ∉ (trim text).toList)
  (line : Nat) (fingerprint : Fingerprint)
include hbreaks

theorem outcome_unclosed_iff (number : Nat) :
    (readRowFrom limits {} 0 line fingerprint rest).outcome = .error (.unclosedQuote number) ↔
      ∃ (texts : List String) (breaks : Nat), rest = texts.map LineRead.ofText ∧
        (∀ text ∈ texts, contentLength (encodeUtf8 text) ≤ limits.lineLength) ∧
        texts.length ≤ max 1 limits.linesPerRow ∧ OpenRow (texts.map trim) breaks ∧
        number = line + 1 + breaks := by
  constructor
  · intro ho
    have hstart : limits.Reaches line (([] : List String).map encodeUtf8) [] {} [] := .start
    obtain ⟨texts, later, split, rfl, h, hended⟩ := exists_ended hstart ho
    cases later with
    | cons next later =>
        obtain ⟨left, hstep⟩ := hended
        exact absurd rfl ((step_failed hstep).1 number)
    | nil =>
        obtain ⟨openedOn, hplace, hnumber⟩ := hended
        cases hnumber
        rw [List.append_nil] at hbreaks ⊢
        rcases h.soFar fun text ht => hbreaks text (List.mem_map_of_mem ht) with
          ⟨-, rfl⟩ | ⟨breaks, hrow, hquoted⟩
        · cases hplace
        · exact ⟨texts, breaks, rfl, h.fits, h.length_le, hrow,
            SplitPlace.quoted.inj (hplace.symm.trans hquoted)⟩
  · rintro ⟨texts, breaks, rfl, hfits, hcount, hrow, rfl⟩
    obtain ⟨split, h, hplace⟩ := exists_reaches hrow
      (fun text ht => hbreaks text (List.mem_map_of_mem ht)) hfits hcount line []
    obtain ⟨fingerprint', hread⟩ := readRowFrom_reached h fingerprint []
    simp only [List.append_nil, List.map_map, List.map_nil] at hread
    rw [show LineRead.ofText = LineRead.line ∘ encodeUtf8 from rfl,
      hread]
    simp [readRowFrom, Split.atEnd, hplace]

theorem outcome_many_iff (number longest : Nat) :
    (readRowFrom limits {} 0 line fingerprint rest).outcome = .error (.manyLines number longest) ↔
      longest = limits.linesPerRow ∧
        ∃ (texts : List String) (text : String) (later : List LineRead) (breaks : Nat),
        rest = (texts ++ [text]).map LineRead.ofText ++ later ∧
        (∀ other ∈ texts ++ [text], contentLength (encodeUtf8 other) ≤ limits.lineLength) ∧
        texts.length = max 1 limits.linesPerRow ∧ OpenRow (texts.map trim) breaks ∧
        number = line + 1 + breaks := by
  constructor
  · intro ho
    have hstart : limits.Reaches line (([] : List String).map encodeUtf8) [] {} [] := .start
    obtain ⟨texts, later, split, rfl, h, hended⟩ := exists_ended hstart ho
    rw [List.nil_append] at h hended
    cases later with
    | nil =>
        obtain ⟨openedOn, -, hfailure⟩ := hended
        cases hfailure
    | cons next later =>
        obtain ⟨left, hstep⟩ := hended
        obtain ⟨rfl, ⟨shown, hshown⟩, hoverdue⟩ := (step_failed hstep).2 number longest rfl
        obtain ⟨text, rfl, hfits, -⟩ := exists_text_of_shown hshown
        obtain ⟨hplace, hmany⟩ := Split.overdue?_eq_some_iff.1 hoverdue
        have htexts : ∀ other ∈ texts, '\n' ∉ (trim other).toList := fun other hother =>
          hbreaks other (List.mem_append_left _ (List.mem_map_of_mem hother))
        rcases h.soFar htexts with ⟨-, rfl⟩ | ⟨breaks, hrow, hquoted⟩
        · cases hplace
        · have hpos : 0 < texts.length :=
            List.length_pos_iff.2 (List.map_eq_nil_iff.not.1 hrow.opened.ne_nil)
          have hle := h.length_le
          refine ⟨rfl, texts, text, later, breaks, ?_, ?_, by omega, hrow,
            SplitPlace.quoted.inj (hplace.symm.trans hquoted)⟩
          · rw [List.map_append, List.append_assoc]
            rfl
          · intro other hother
            rcases List.mem_append.1 hother with hother | hother
            · exact h.fits other hother
            · rwa [List.mem_singleton.1 hother]
  · rintro ⟨rfl, texts, text, later, breaks, rfl, hfits, hcount, hrow, rfl⟩
    have htexts : ∀ other ∈ texts, '\n' ∉ (trim other).toList := fun other hother =>
      hbreaks other (List.mem_append_left later (List.mem_map_of_mem (List.mem_append_left _ hother)))
    obtain ⟨split, h, hplace⟩ := exists_reaches hrow htexts
      (fun other hother => hfits other (List.mem_append_left _ hother)) (Nat.le_of_eq hcount) line
      [encodeUtf8 text]
    obtain ⟨fingerprint', hread⟩ := readRowFrom_reached h fingerprint later
    have hrest : (texts ++ [text]).map LineRead.ofText ++ later =
        (texts.map encodeUtf8 ++ [encodeUtf8 text]).map .line ++ later := by
      rw [← List.map_singleton, ← List.map_append, List.map_map]
      rfl
    have hoverdue : split.overdue? limits texts.length = some (line + 1 + breaks) :=
      Split.overdue?_eq_some_iff.2 ⟨hplace, by omega⟩
    rw [hrest, hread, List.map_singleton, List.singleton_append, readRowFrom,
      shown_text (hfits text (by simp))]
    simp [Split.step, hoverdue]

end Limits

end DefinitionFiles
