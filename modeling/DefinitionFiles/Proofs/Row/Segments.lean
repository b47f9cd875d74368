import DefinitionFiles.Proofs.Row.RoundTrip
import Mathlib

namespace DefinitionFiles

open Text

/-- Text in which every quote mark is half of a doubled pair, the pairs being taken from left to
right. -/
inductive Paired : List Char → Prop
  | nil : Paired []
  | char (c : Char) (rest : List Char) (hc : c ≠ quoteMark) (h : Paired rest) : Paired (c :: rest)
  | pair (rest : List Char) (h : Paired rest) : Paired (quoteMark :: quoteMark :: rest)

def halve : List Char → List Char
  | c :: d :: rest =>
      if c = quoteMark ∧ d = quoteMark then quoteMark :: halve rest else c :: halve (d :: rest)
  | text => text

theorem halve_pair (rest : List Char) :
    halve (quoteMark :: quoteMark :: rest) = quoteMark :: halve rest := by
  simp [halve]

theorem halve_char {c : Char} (h : c ≠ quoteMark) (rest : List Char) :
    halve (c :: rest) = c :: halve rest := by
  cases rest <;> simp [halve, h]

/-- The text after an opening mark has a closing one, or it does not: the first mark that is not
half of a pair. -/
theorem paired_or_closed (text : List Char) :
    Paired text ∨ ∃ body after, text = body ++ quoteMark :: after ∧ Paired body ∧
      after.head? ≠ some quoteMark := by
  induction text using halve.induct with
  | case1 c d rest h ih =>
      obtain ⟨rfl, rfl⟩ := h
      rcases ih with hrest | ⟨body, after, rfl, hbody, hafter⟩
      · exact .inl (.pair rest hrest)
      · exact .inr ⟨quoteMark :: quoteMark :: body, after, rfl, .pair body hbody, hafter⟩
  | case2 c d rest h ih =>
      by_cases hc : c = quoteMark
      · subst hc
        have hd : d ≠ quoteMark := by simpa using h
        exact .inr ⟨[], d :: rest, rfl, .nil, by simpa using hd⟩
      · rcases ih with hrest | ⟨body, after, htext, hbody, hafter⟩
        · exact .inl (.char c _ hc hrest)
        · exact .inr ⟨c :: body, after, by rw [htext]; rfl, .char c body hc hbody, hafter⟩
  | case3 text h =>
      cases text with
      | nil => exact .inl .nil
      | cons c rest =>
          cases rest with
          | cons d rest => exact absurd rfl (h c d rest)
          | nil =>
              by_cases hc : c = quoteMark
              · exact .inr ⟨[], [], by rw [hc]; rfl, .nil, by simp⟩
              · exact .inl (.char c [] hc .nil)

theorem Paired.append {text more : List Char} (h : Paired text) (hmore : Paired more) :
    Paired (text ++ more) := by
  induction h with
  | nil => exact hmore
  | char c rest hc h ih => exact .char c _ hc ih
  | pair rest h ih => exact .pair _ ih

theorem Paired.closed_unique {body after text more : List Char} (h : Paired body)
    (hafter : after.head? ≠ some quoteMark) (htext : Paired text)
    (hmore : more = [] ∨ ∃ after', more = quoteMark :: after' ∧ after'.head? ≠ some quoteMark)
    (heq : body ++ quoteMark :: after = text ++ more) :
    body = text ∧ more = quoteMark :: after := by
  induction h generalizing text with
  | nil =>
      cases htext with
      | nil => exact ⟨rfl, heq.symm⟩
      | char c rest hc _ => exact absurd (List.cons.inj heq).1.symm hc
      | pair rest _ => simp_all
  | char c rest hc h ih =>
      cases htext with
      | nil =>
          rcases hmore with rfl | ⟨after', rfl, -⟩
          · cases heq
          · exact absurd (List.cons.inj heq).1 hc
      | char d rest' _ hrest' =>
          obtain ⟨rfl, htail⟩ := List.cons.inj heq
          obtain ⟨rfl, hmore⟩ := ih hrest' htail
          exact ⟨rfl, hmore⟩
      | pair rest' _ => exact absurd (List.cons.inj heq).1 hc
  | pair rest h ih =>
      cases htext with
      | nil =>
          rcases hmore with rfl | ⟨after', rfl, hafter'⟩
          · cases heq
          · obtain ⟨-, htail⟩ := List.cons.inj heq
            exact absurd (by rw [← htail]; rfl) hafter'
      | char d rest' hd _ => exact absurd (List.cons.inj heq).1.symm hd
      | pair rest' hrest' =>
          obtain ⟨-, htail⟩ := List.cons.inj heq
          obtain ⟨-, htail⟩ := List.cons.inj htail
          obtain ⟨rfl, hmore⟩ := ih hrest' htail
          exact ⟨rfl, hmore⟩

/-- What stands between two separators that are not quoted: text without a quoted section, one
with a section and what follows it, or one whose section has no end. -/
inductive Segment
  | plain (text : List Char)
  | quoted (before body after : List Char)
  | opened (before body : List Char)
deriving DecidableEq, Repr

namespace Segment

def text : Segment → List Char
  | plain text => text
  | quoted before body after => before ++ quoteMark :: (body ++ quoteMark :: after)
  | opened before body => before ++ quoteMark :: body

def value : Segment → List Char
  | plain text => text
  | quoted _ body after => halve body ++ after
  | opened _ body => halve body

def field (segment : Segment) : String := trim (String.ofList segment.value)

def isOpened : Segment → Bool
  | opened _ _ => true
  | plain _ | quoted _ _ _ => false

/-- There is a section just if the first mark that is no blank is a quote mark. It ends at the
first quote mark that is not half of a pair. -/
inductive Sound : Segment → Prop
  | plain (text : List Char) (hseparator : fieldSeparator ∉ text)
      (hfirst : (text.dropWhile isBlank).head? ≠ some quoteMark) : Sound (plain text)
  | quoted (before body after : List Char) (hbefore : ∀ c ∈ before, isBlank c = true)
      (hbody : Paired body) (hafter : after.head? ≠ some quoteMark)
      (hseparator : fieldSeparator ∉ after) : Sound (quoted before body after)
  | opened (before body : List Char) (hbefore : ∀ c ∈ before, isBlank c = true)
      (hbody : Paired body) : Sound (opened before body)

end Segment

/-- A line cut at the separators outside of quoted sections. -/
inductive Cut : List Char → List Segment → Prop
  | last (segment : Segment) (h : segment.Sound) : Cut segment.text [segment]
  | more (segment : Segment) (rest : List Char) (segments : List Segment) (h : segment.Sound)
      (hclosed : segment.isOpened = false) (hrest : Cut rest segments) :
      Cut (segment.text ++ fieldSeparator :: rest) (segment :: segments)

def AtSeparator (tail : List Char) : Prop := tail = [] ∨ tail.head? = some fieldSeparator

def Segment.Ends (segment : Segment) (tail : List Char) : Prop :=
  tail = [] ∨ segment.isOpened = false ∧ tail.head? = some fieldSeparator

theorem Segment.Ends.atSeparator {segment : Segment} {tail : List Char} (h : segment.Ends tail) :
    AtSeparator tail := h.imp_right And.right

theorem dropWhile_blank_mark {before : List Char} (h : ∀ c ∈ before, isBlank c = true)
    (rest : List Char) :
    (before ++ quoteMark :: rest).dropWhile isBlank = quoteMark :: rest := by
  rw [List.dropWhile_append_of_pos h, List.dropWhile_cons_of_neg (by decide)]

theorem head?_dropWhile_append {text tail : List Char}
    (h : (text.dropWhile isBlank).head? ≠ some quoteMark)
    (htail : AtSeparator tail) :
    ((text ++ tail).dropWhile isBlank).head? ≠ some quoteMark := by
  rw [List.dropWhile_append]
  cases hd : text.dropWhile isBlank with
  | cons c rest => simpa [hd] using h
  | nil =>
      rcases htail with rfl | htail
      · simp
      · cases tail with
        | nil => simp
        | cons c rest =>
            obtain rfl : c = fieldSeparator := by simpa using htail
            rw [List.isEmpty_nil, if_pos rfl, List.dropWhile_cons_of_neg (by decide)]
            simp [fieldSeparator, quoteMark]

theorem head?_append_separator {after tail : List Char} (h : after.head? ≠ some quoteMark)
    (htail : AtSeparator tail) :
    (after ++ tail).head? ≠ some quoteMark := by
  cases after with
  | cons c rest => exact h
  | nil =>
      rcases htail with rfl | htail
      · simp
      · rw [List.nil_append, htail]
        decide

theorem exists_separator (text : List Char) :
    ∃ field tail, text = field ++ tail ∧ fieldSeparator ∉ field ∧ AtSeparator tail := by
  by_cases h : fieldSeparator ∈ text
  · obtain ⟨field, rest, rfl, hfield⟩ := List.eq_append_cons_of_mem h
    exact ⟨field, fieldSeparator :: rest, rfl, hfield, .inr rfl⟩
  · exact ⟨text, [], (List.append_nil text).symm, h, .inl rfl⟩

theorem exists_segment (line : List Char) :
    ∃ (segment : Segment) (tail : List Char), segment.Sound ∧ line = segment.text ++ tail ∧
      segment.Ends tail := by
  let before := line.takeWhile isBlank
  have hbefore : ∀ c ∈ before, isBlank c = true := fun c hc => List.mem_takeWhile_imp hc
  have hline : before ++ line.dropWhile isBlank = line := List.takeWhile_append_dropWhile
  by_cases hmark : (line.dropWhile isBlank).head? = some quoteMark
  · obtain ⟨inside, hinside⟩ := List.head?_eq_some_iff.1 hmark
    rw [hinside] at hline
    rcases paired_or_closed inside with hbody | ⟨body, after, rfl, hbody, hafter⟩
    · exact ⟨.opened before inside, [], .opened _ _ hbefore hbody,
        by rw [List.append_nil]; exact hline.symm, .inl rfl⟩
    · obtain ⟨field, tail, rfl, hfield, htail⟩ := exists_separator after
      refine ⟨.quoted before body field, tail, .quoted _ _ _ hbefore hbody ?_ hfield, ?_,
        htail.imp_right fun h => ⟨rfl, h⟩⟩
      · cases field with
        | nil => simp
        | cons c rest => exact hafter
      · simp [Segment.text, ← hline]
  · obtain ⟨field, tail, rfl, hfield, htail⟩ := exists_separator line
    refine ⟨.plain field, tail, .plain _ hfield ?_, rfl, htail.imp_right fun h => ⟨rfl, h⟩⟩
    rw [List.dropWhile_append] at hmark
    intro hfirst
    obtain ⟨rest, hrest⟩ := List.head?_eq_some_iff.1 hfirst
    exact hmark (by simp [hrest])

theorem exists_cut (line : List Char) : ∃ segments, Cut line segments := by
  induction hn : line.length using Nat.strongRecOn generalizing line with
  | ind n ih =>
      obtain ⟨segment, tail, hsound, rfl, hends⟩ := exists_segment line
      rcases hends with rfl | ⟨hclosed, htail⟩
      · rw [List.append_nil]
        exact ⟨[segment], .last segment hsound⟩
      · obtain ⟨rest, rfl⟩ := List.head?_eq_some_iff.1 htail
        obtain ⟨segments, hrest⟩ := ih rest.length (by rw [← hn]; simp; omega) rest rfl
        exact ⟨segment :: segments, .more segment rest segments hsound hclosed hrest⟩

theorem separator_unique {field field' tail tail' : List Char} (h : fieldSeparator ∉ field)
    (h' : fieldSeparator ∉ field') (htail : AtSeparator tail)
    (htail' : AtSeparator tail')
    (heq : field ++ tail = field' ++ tail') : field = field' ∧ tail = tail' := by
  have hfield {field tail : List Char} (h : fieldSeparator ∉ field)
      (htail : AtSeparator tail) :
      (field ++ tail).takeWhile (· ≠ fieldSeparator) = field := by
    rw [List.takeWhile_append_of_pos fun c hc => by
      simpa using fun hs : c = fieldSeparator => h (hs ▸ hc)]
    rcases htail with rfl | htail
    · simp
    · obtain ⟨rest, rfl⟩ := List.head?_eq_some_iff.1 htail
      simp
  have hsame : field = field' := by
    rw [← hfield h htail, heq, hfield h' htail']
  subst hsame
  exact ⟨rfl, List.append_cancel_left heq⟩

theorem section_unique {before before' inside inside' : List Char}
    (h : ∀ c ∈ before, isBlank c = true) (h' : ∀ c ∈ before', isBlank c = true)
    (heq : before ++ quoteMark :: inside = before' ++ quoteMark :: inside') :
    before = before' ∧ inside = inside' := by
  have hinside : inside = inside' := by
    have hdrop := congrArg (List.dropWhile isBlank) heq
    rw [dropWhile_blank_mark h, dropWhile_blank_mark h'] at hdrop
    exact (List.cons.inj hdrop).2
  subst hinside
  exact ⟨List.append_cancel_right heq, rfl⟩

theorem plain_ne_section {text tail before inside : List Char}
    (hfirst : (text.dropWhile isBlank).head? ≠ some quoteMark) (htail : AtSeparator tail)
    (hbefore : ∀ c ∈ before, isBlank c = true) :
    text ++ tail ≠ before ++ quoteMark :: inside := by
  intro heq
  have hmark := head?_dropWhile_append hfirst htail
  rw [heq, dropWhile_blank_mark hbefore] at hmark
  exact hmark rfl

namespace Segment

theorem text_quoted_append (before body after tail : List Char) :
    (quoted before body after).text ++ tail =
      before ++ quoteMark :: (body ++ quoteMark :: (after ++ tail)) := by
  simp [text]

theorem text_opened_append (before body tail : List Char) :
    (opened before body).text ++ tail = before ++ quoteMark :: (body ++ tail) := by
  simp [text]

theorem Ends.eq_nil {before body tail : List Char} (h : (opened before body).Ends tail) :
    tail = [] := h.resolve_right fun h => nomatch h.1

theorem Sound.unique {segment other : Segment} {tail tail' : List Char} (h : segment.Sound)
    (h' : other.Sound) (htail : segment.Ends tail) (htail' : other.Ends tail')
    (heq : segment.text ++ tail = other.text ++ tail') : segment = other ∧ tail = tail' := by
  cases h with
  | plain text hseparator hfirst =>
      cases h' with
      | plain text' hseparator' _ =>
          obtain ⟨rfl, rfl⟩ := separator_unique hseparator hseparator' htail.atSeparator
            htail'.atSeparator heq
          exact ⟨rfl, rfl⟩
      | quoted before body after hbefore _ _ _ =>
          rw [text_quoted_append] at heq
          exact absurd heq (plain_ne_section hfirst htail.atSeparator hbefore)
      | opened before body hbefore _ =>
          rw [text_opened_append] at heq
          exact absurd heq (plain_ne_section hfirst htail.atSeparator hbefore)
  | quoted before body after hbefore hbody hafter hseparator =>
      rw [text_quoted_append] at heq
      cases h' with
      | plain text' _ hfirst =>
          exact absurd heq.symm (plain_ne_section hfirst htail'.atSeparator hbefore)
      | quoted before' body' after' hbefore' hbody' hafter' hseparator' =>
          rw [text_quoted_append] at heq
          obtain ⟨rfl, hinside⟩ := section_unique hbefore hbefore' heq
          obtain ⟨rfl, hmore⟩ := hbody.closed_unique
            (head?_append_separator hafter htail.atSeparator) hbody'
            (.inr ⟨_, rfl, head?_append_separator hafter' htail'.atSeparator⟩) hinside
          obtain ⟨rfl, rfl⟩ := separator_unique hseparator hseparator' htail.atSeparator
            htail'.atSeparator (List.cons.inj hmore).2.symm
          exact ⟨rfl, rfl⟩
      | opened before' body' hbefore' hbody' =>
          rw [text_opened_append, htail'.eq_nil] at heq
          obtain ⟨rfl, hinside⟩ := section_unique hbefore hbefore' heq
          have hmore := (hbody.closed_unique (head?_append_separator hafter htail.atSeparator)
            hbody' (.inl rfl) hinside).2
          cases hmore
  | opened before body hbefore hbody =>
      rw [text_opened_append, htail.eq_nil] at heq
      cases h' with
      | plain text' _ hfirst =>
          exact absurd heq.symm (plain_ne_section hfirst htail'.atSeparator hbefore)
      | quoted before' body' after' hbefore' hbody' hafter' _ =>
          rw [text_quoted_append] at heq
          obtain ⟨rfl, hinside⟩ := section_unique hbefore hbefore' heq
          have hmore := (hbody'.closed_unique
            (head?_append_separator hafter' htail'.atSeparator) hbody (.inl rfl) hinside.symm).2
          cases hmore
      | opened before' body' hbefore' hbody' =>
          rw [text_opened_append, htail'.eq_nil] at heq
          obtain ⟨rfl, hinside⟩ := section_unique hbefore hbefore' heq
          obtain rfl := List.append_cancel_right hinside
          exact ⟨rfl, htail.eq_nil.trans htail'.eq_nil.symm⟩

end Segment

namespace Cut

variable {line rest : List Char} {segment : Segment} {segments others : List Segment}

theorem ne_nil (h : Cut line segments) : segments ≠ [] := by
  cases h <;> simp

theorem uncons (h : Cut line (segment :: segments)) :
    ∃ tail, line = segment.text ++ tail ∧ segment.Sound ∧ segment.Ends tail ∧
      (segments = [] ∧ tail = [] ∨ ∃ rest, tail = fieldSeparator :: rest ∧ Cut rest segments) := by
  cases h with
  | last _ h => exact ⟨[], (List.append_nil _).symm, h, .inl rfl, .inl ⟨rfl, rfl⟩⟩
  | more _ rest _ h hclosed hrest =>
      exact ⟨fieldSeparator :: rest, rfl, h, .inr ⟨hclosed, rfl⟩, .inr ⟨rest, rfl, hrest⟩⟩

/-- A line can be cut in one way only. -/
theorem unique (h : Cut line segments) (h' : Cut line others) : segments = others := by
  induction h generalizing others with
  | last segment h =>
      cases others with
      | nil => exact absurd rfl h'.ne_nil
      | cons other others =>
          obtain ⟨tail, htext, hsound, hends, hrest⟩ := h'.uncons
          obtain ⟨rfl, rfl⟩ := h.unique hsound (.inl rfl) hends (by rwa [List.append_nil])
          rcases hrest with ⟨rfl, -⟩ | ⟨rest, hrest, -⟩
          · rfl
          · cases hrest
  | more segment rest segments h hclosed hrest ih =>
      cases others with
      | nil => exact absurd rfl h'.ne_nil
      | cons other others =>
          obtain ⟨tail, htext, hsound, hends, hothers⟩ := h'.uncons
          obtain ⟨rfl, rfl⟩ := h.unique hsound (.inr ⟨hclosed, rfl⟩) hends htext
          rcases hothers with ⟨-, hnil⟩ | ⟨rest', heq, hothers⟩
          · cases hnil
          · cases heq
            rw [ih hothers]

end Cut

def opening? : List Segment → Option (List Char)
  | [] => none
  | [.opened before _] => some before
  | segment :: segments => (opening? segments).map (segment.text ++ fieldSeparator :: ·)

theorem opening?_cons (segment : Segment) {segments : List Segment} (h : segments ≠ []) :
    opening? (segment :: segments) =
      (opening? segments).map (segment.text ++ fieldSeparator :: ·) := by
  cases segments with
  | nil => exact absurd rfl h
  | cons next segments => cases segment <;> rfl

namespace Cut

variable {line before : List Char} {segments : List Segment}

theorem isSome_opening? (h : Cut line segments) :
    (opening? segments).isSome = segments.any Segment.isOpened := by
  induction h with
  | last segment h => cases segment <;> rfl
  | more segment rest segments h hclosed hrest ih =>
      rw [opening?_cons segment hrest.ne_nil, Option.isSome_map, ih, List.any_cons, hclosed,
        Bool.false_or]

theorem line_of_opening (h : Cut line segments) (hopening : opening? segments = some before) :
    ∃ body, line = before ++ quoteMark :: body := by
  induction h generalizing before with
  | last segment h =>
      cases segment with
      | plain text => cases hopening
      | quoted start body after => cases hopening
      | opened start body =>
          cases hopening
          exact ⟨body, rfl⟩
  | more segment rest segments h hclosed hrest ih =>
      rw [opening?_cons segment hrest.ne_nil] at hopening
      obtain ⟨later, hlater, rfl⟩ := Option.map_eq_some_iff.1 hopening
      obtain ⟨body, rfl⟩ := ih hlater
      exact ⟨body, by simp⟩

theorem recut (h : Cut line segments) :
    ∃ start first last, line = start ++ Segment.text last ∧ segments = first ++ [last] ∧ last.Sound ∧
      ∀ more others, Cut more others → Cut (start ++ more) (first ++ others) ∧
        opening? (first ++ others) = (opening? others).map (start ++ ·) := by
  induction h with
  | last segment h =>
      exact ⟨[], [], segment, rfl, rfl, h, fun more others hothers => ⟨hothers, by simp⟩⟩
  | more segment rest segments h hclosed hrest ih =>
      obtain ⟨start, first, last, rfl, rfl, hlast, hrecut⟩ := ih
      refine ⟨segment.text ++ fieldSeparator :: start, segment :: first, last, by simp, rfl, hlast,
        fun more others hothers => ?_⟩
      obtain ⟨hcut, hopening⟩ := hrecut more others hothers
      constructor
      · simpa using Cut.more segment _ _ h hclosed hcut
      · rw [List.cons_append, opening?_cons segment hcut.ne_nil, hopening, Option.map_map]
        congr 1
        funext before
        simp

end Cut

end DefinitionFiles
