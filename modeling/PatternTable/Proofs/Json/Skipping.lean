import PatternTable.Proofs.Json.Quotations

/-!
# Skipping values of no interest

A member that no record has may hold any value. It is skipped as a whole, whatever it is: all that
the reader must not do is stop early or go on too far. Only a number says nothing about its own end,
so the text after a value is taken to be delimited.

* `Takes`: a reader takes exactly a text, and gives a value.
* `Steps`: a reader of entries takes one entry after the other, from state to state.

Results:
* `entries_of_steps`: entries are read between brackets as they are read one by one.
* `skipValue_of_isValue`: every value is skipped, at any depth.
-/

namespace PatternTable.Json

/-! ## Specification -/

/-- A reader takes exactly a text, and gives a value, whatever delimited text follows. -/
def Takes {α : Type} (read : Reader α) (cs : List Char) (value : α) : Prop :=
  ∀ rest, Delimited rest → read (cs ++ rest) = .ok (value, rest)

/-- A reader of entries takes each of some entries, from one state to the next. -/
inductive Steps {σ : Type} (entry : σ → Reader σ) : σ → List (List Char) → σ → Prop where
  | nil {state : σ} : Steps entry state [] state
  | cons {before after last : σ} {cs : List Char} {entries : List (List Char)} :
      Starts cs → Takes (entry before) cs after → Steps entry after entries last →
        Steps entry before (cs :: entries) last

/-! ## Entries -/

theorem Steps.ne_nil {σ : Type} {entry : σ → Reader σ} {first last : σ}
    {entries : List (List Char)} (h : Steps entry first entries last) :
    ∀ cs ∈ entries, cs ≠ [] := by
  induction h with
  | nil => simp
  | cons hstarts _ _ ih => exact List.forall_mem_cons.2 ⟨hstarts.ne_nil, ih⟩

theorem Steps.starts {σ : Type} {entry : σ → Reader σ} {first last : σ} {cs : List Char}
    {entries : List (List Char)} (h : Steps entry first (cs :: entries) last) : Starts cs := by
  cases h with
  | cons hstarts _ _ => exact hstarts

theorem Separated.starts_skipSpaces {cs : List Char} {entries : List (List Char)}
    {body : List Char} (h : Separated (cs :: entries) body) (hstarts : Starts cs)
    (rest : List Char) : Starts (skipSpaces (body ++ rest)) := by
  have padded {padded : List Char} (hpadded : Padded cs padded) (more : List Char) :
      Starts (skipSpaces (padded ++ more)) := by
    obtain ⟨before, after, hbefore, -, rfl⟩ := hpadded
    rw [List.append_assoc, List.append_assoc, skipSpaces_blank_append hbefore,
      skipSpaces_of_starts (hstarts.append _)]
    exact hstarts.append _
  cases h with
  | one hpadded => exact padded hpadded rest
  | more hpadded _ =>
    rw [List.append_assoc]
    exact padded hpadded _

section

variable {σ : Type} {entry : σ → Reader σ} {closing : Char}

/-- Before a first entry, its text is read. -/
theorem entriesFrom_first {cs : List Char} (hstarts : Starts cs)
    (hclosing : closing ∈ [']', '\x7d']) {before after : σ} (htakes : Takes (entry before) cs after)
    {blank rest : List Char} (hblank : IsBlank blank) (hrest : Delimited rest) (fuel : Nat) :
    entriesFrom closing entry true (fuel + 1) before (blank ++ (cs ++ rest)) =
      entriesFrom closing entry false fuel after rest := by
  have hread : entry before (cs ++ rest) = .ok (after, rest) := htakes rest hrest
  obtain ⟨c, tail, rfl, hc⟩ := hstarts
  have hne : c ≠ closing := by
    rintro rfl
    exact hc (List.mem_append_right [' ', '\t', '\n', '\r', ','] hclosing)
  rw [entriesFrom, skipSpaces_blank_append hblank, List.cons_append,
    skipSpaces_of_starts (starts_cons hc _)]
  simp only [hne, if_false, if_true]
  rw [← List.cons_append, hread]

/-- After a comma, the next entry is read as a first one is. -/
theorem entriesFrom_comma {cs : List Char} (hstarts : Starts (skipSpaces cs))
    (hclosing : closing ∈ [']', '\x7d']) {blank : List Char} (hblank : IsBlank blank) (state : σ)
    (fuel : Nat) :
    entriesFrom closing entry false fuel state (blank ++ ',' :: cs) =
      entriesFrom closing entry true fuel state cs := by
  obtain ⟨c, tail, hcs, hc⟩ := hstarts
  have hne : c ≠ closing := by
    rintro rfl
    exact hc (List.mem_append_right [' ', '\t', '\n', '\r', ','] hclosing)
  have hcomma : ',' ≠ closing := by
    rintro rfl
    exact absurd hclosing (by decide)
  cases fuel with
  | zero => rfl
  | succ fuel =>
    rw [entriesFrom, entriesFrom, skipSpaces_blank_append hblank,
      skipSpaces_of_not_mem (by decide), hcs]
    simp [hne, hcomma, hcs]

theorem entriesFrom_closing (hclosing : closing ∈ [']', '\x7d']) {blank : List Char}
    (hblank : IsBlank blank) (isFirst : Bool) (state : σ) (fuel : Nat) (rest : List Char) :
    entriesFrom closing entry isFirst (fuel + 1) state (blank ++ closing :: rest) =
      .ok (state, rest) := by
  have hspace : closing ∉ [' ', '\t', '\n', '\r'] := by
    simp only [List.mem_cons, List.not_mem_nil, or_false] at hclosing
    obtain rfl | rfl := hclosing <;> decide
  rw [entriesFrom, skipSpaces_blank_append hblank, skipSpaces_of_not_mem hspace]
  simp

/-- Entries that are read one by one are read between their brackets. -/
theorem entriesFrom_of_steps (hclosing : closing ∈ [']', '\x7d']) {entries : List (List Char)}
    {body : List Char} (hbody : Separated entries body) {first last : σ}
    (hsteps : Steps entry first entries last) {fuel : Nat} (hfuel : entries.length < fuel)
    (rest : List Char) :
    entriesFrom closing entry true fuel first (body ++ closing :: rest) = .ok (last, rest) := by
  have hdelimited : Delimited (closing :: rest) :=
    delimited_cons (List.mem_append_right [' ', '\t', '\n', '\r', ','] hclosing) rest
  induction hbody generalizing first fuel with
  | none hblank =>
    cases hsteps
    obtain ⟨fuel, rfl⟩ := Nat.exists_eq_add_one.2 hfuel
    exact entriesFrom_closing hclosing hblank true last fuel rest
  | one hpadded =>
    obtain ⟨before, after, hbefore, hafter, rfl⟩ := hpadded
    obtain - | ⟨hstarts, htakes, hsteps⟩ := hsteps
    cases hsteps
    obtain ⟨fuel, rfl⟩ : ∃ n, fuel = n + 1 + 1 := ⟨fuel - 2, by simp at hfuel; omega⟩
    rw [List.append_assoc, List.append_assoc,
      entriesFrom_first hstarts hclosing htakes hbefore (hafter.delimited_append hdelimited)]
    exact entriesFrom_closing hclosing hafter false last fuel rest
  | @more cs _ next following texts hpadded hmore ih =>
    obtain ⟨before, after, hbefore, hafter, rfl⟩ := hpadded
    obtain - | ⟨hstarts, htakes, hsteps⟩ := hsteps
    obtain ⟨fuel, rfl⟩ : ∃ n, fuel = n + 1 := ⟨fuel - 1, by simp at hfuel; omega⟩
    have hnext := hmore.starts_skipSpaces hsteps.starts (closing :: rest)
    have hcomma : Delimited (',' :: (following ++ closing :: rest)) :=
      delimited_cons (by decide) _
    simp only [List.append_assoc, List.cons_append]
    rw [entriesFrom_first hstarts hclosing htakes hbefore (hafter.delimited_append hcomma),
      entriesFrom_comma hnext hclosing hafter]
    exact ih hsteps (by simpa using hfuel)

end

/-- Entries that are read one by one are read once their opening bracket has been. -/
theorem entries_of_steps {opening closing : Char} {texts : List (List Char)} {cs : List Char}
    (hbrackets : Bracketed opening closing texts cs) (hclosing : closing ∈ [']', '\x7d'])
    {bound : Nat} (hbound : cs.length ≤ bound) (rest : List Char) :
    ∃ inner, cs ++ rest = opening :: inner ∧
      ∀ {σ : Type} {entry : σ → Reader σ} {first last : σ}, Steps entry first texts last →
        entries bound closing entry first inner = .ok (last, rest) := by
  obtain ⟨body, hbody, rfl⟩ := hbrackets
  refine ⟨body ++ closing :: rest, by simp, fun hsteps => ?_⟩
  refine entriesFrom_of_steps hclosing hbody hsteps ?_ rest
  have hcount := hbody.length_le hsteps.ne_nil
  simp only [List.length_cons, List.length_append] at hbound
  omega

/-- Entries that write the items of a list are read one by one, when each is read in the state that
    the items before it have led to. -/
theorem steps_of_forall₂ {α σ : Type} {entry : σ → Reader σ} {writes : α → List Char → Prop}
    (state : List α → σ) {items : List α} {texts : List (List Char)}
    (htexts : List.Forall₂ writes items texts)
    (hstep : ∀ before item after, items = before ++ item :: after → ∀ cs ∈ texts, writes item cs →
      Starts cs ∧ Takes (entry (state before)) cs (state (before ++ [item]))) :
    Steps entry (state []) texts (state items) := by
  have go (done : List α) (hdone : ∀ before item after, items = before ++ item :: after →
      ∀ cs ∈ texts, writes item cs → Starts cs ∧
        Takes (entry (state (done ++ before))) cs (state (done ++ (before ++ [item])))) :
      Steps entry (state done) texts (state (done ++ items)) := by
    clear hstep
    induction htexts generalizing done with
    | nil => simpa using Steps.nil
    | @cons item cs items texts hitem htexts ih =>
      obtain ⟨hstarts, htakes⟩ := hdone [] item items rfl cs List.mem_cons_self hitem
      rw [List.append_nil] at htakes
      refine .cons hstarts htakes ?_
      have hrest := ih (done ++ [item]) fun before next after heq cs hcs => by
        simpa using hdone (item :: before) next after (by rw [heq]; rfl) cs
          (List.mem_cons_of_mem _ hcs)
      simpa using hrest
  simpa using go [] (by simpa using hstep)

/-! ## Numbers -/

/-- The first character of a text, if there is one, is no digit. -/
def NoDigit (cs : List Char) : Prop :=
  ∀ c ∈ cs.head?, c.isDigit = false

theorem noDigit_of_head {cs others : List Char} (h : ∀ c ∈ cs.head?, c ∈ others)
    (hothers : ∀ other ∈ others, other.isDigit = false) : NoDigit cs :=
  fun c hc => hothers c (h c hc)

theorem dropWhile_digits {ds : List Char} (hds : ∀ c ∈ ds, c.isDigit = true) {rest : List Char}
    (hrest : NoDigit rest) : (ds ++ rest).dropWhile Char.isDigit = rest := by
  rw [List.dropWhile_append_of_pos hds]
  cases rest with
  | nil => rfl
  | cons c rest => simp [hrest c (by simp)]

theorem skipDigits_of_isDigits {ds : List Char} (hds : IsDigits ds) {rest : List Char}
    (hrest : NoDigit rest) : skipDigits (ds ++ rest) = .ok rest := by
  have hdrop := dropWhile_digits hds.2 hrest
  obtain ⟨hne, hall⟩ := hds
  cases ds with
  | nil => exact absurd rfl hne
  | cons d ds =>
    have hd : d.isDigit = true := hall d List.mem_cons_self
    rw [List.cons_append, List.dropWhile_cons_of_pos hd] at hdrop
    rw [List.cons_append, skipDigits, if_pos hd, hdrop]

theorem IsDigits.exists_cons {ds : List Char} (h : IsDigits ds) :
    ∃ d rest, ds = d :: rest ∧ d.isDigit = true := by
  obtain ⟨hne, hall⟩ := h
  obtain ⟨d, rest, rfl⟩ := List.exists_cons_of_ne_nil hne
  exact ⟨d, rest, rfl, hall d List.mem_cons_self⟩

theorem skipExponent_of_delimited {cs : List Char} (h : Delimited cs) :
    skipExponent cs = .ok cs := by
  cases cs with
  | nil => rfl
  | cons c cs =>
    have hc : c ∈ [' ', '\t', '\n', '\r', ',', ']', '\x7d'] := h c (by simp)
    have hnot : ¬ (c = 'e' ∨ c = 'E') := by
      rintro (rfl | rfl) <;> exact absurd hc (by decide)
    unfold skipExponent
    exact if_neg hnot

theorem skipExponent_of_isExponent {cs : List Char} (h : IsExponent cs) {rest : List Char}
    (hrest : Delimited rest) : skipExponent (cs ++ rest) = .ok rest := by
  cases h with
  | absent => exact skipExponent_of_delimited hrest
  | @power e sign ds he hsign hds =>
    have he : e = 'e' ∨ e = 'E' := by simpa using he
    have hdigits : skipDigits (ds ++ rest) = .ok rest :=
      skipDigits_of_isDigits hds (noDigit_of_head hrest (by simp))
    unfold skipExponent
    simp only [List.cons_append, List.append_assoc, if_pos he]
    simp only [List.mem_cons, List.not_mem_nil, or_false] at hsign
    obtain rfl | rfl | rfl := hsign
    · obtain ⟨d, more, rfl, hd⟩ := hds.exists_cons
      simp only [List.nil_append, List.cons_append] at hdigits ⊢
      split
      case h_1 hcons => simp_all
      case h_2 hcons => simp_all
      case h_3 => exact hdigits
    · exact hdigits
    · exact hdigits

theorem IsExponent.head_mem {cs : List Char} (h : IsExponent cs) {rest : List Char}
    (hrest : Delimited rest) :
    ∀ c ∈ (cs ++ rest).head?, c ∈ ['e', 'E', ' ', '\t', '\n', '\r', ',', ']', '\x7d'] := by
  cases h with
  | absent => exact fun c hc => List.mem_append_right ['e', 'E'] (hrest c hc)
  | @power e _ _ he _ _ =>
    intro c hc
    obtain rfl : e = c := by simpa using hc
    exact List.mem_append_left _ he

theorem skipFraction_of_isFraction {cs exponent : List Char} (h : IsFraction cs)
    (hexponent : IsExponent exponent) {rest : List Char} (hrest : Delimited rest) :
    skipFraction (cs ++ (exponent ++ rest)) = .ok rest := by
  have htail : skipExponent (exponent ++ rest) = .ok rest :=
    skipExponent_of_isExponent hexponent hrest
  have hhead := hexponent.head_mem hrest
  cases h with
  | absent =>
    rw [List.nil_append, skipFraction]
    · exact htail
    · intro places hpoint
      rw [hpoint] at hhead
      exact absurd (hhead '.' rfl) (by decide)
  | places hds =>
    rw [List.cons_append, skipFraction,
      skipDigits_of_isDigits hds (noDigit_of_head hhead (by simp))]
    exact htail

theorem IsFraction.head_mem {cs : List Char} (h : IsFraction cs) {rest : List Char}
    {others : List Char} (hrest : ∀ c ∈ rest.head?, c ∈ others) :
    ∀ c ∈ (cs ++ rest).head?, c ∈ '.' :: others := by
  intro c hc
  cases h with
  | absent => exact List.mem_cons_of_mem _ (hrest c hc)
  | places _ =>
    obtain rfl : '.' = c := by simpa using hc
    exact List.mem_cons_self

theorem IsWhole.exists_cons {cs : List Char} (h : IsWhole cs) :
    ∃ c rest, cs = c :: rest ∧ c.isDigit = true := by
  cases h with
  | zero => exact ⟨'0', [], rfl, by decide⟩
  | @digits d ds hd _ _ => exact ⟨d, ds, rfl, hd⟩

theorem skipNumber_of_isWhole {whole fraction exponent : List Char} (hwhole : IsWhole whole)
    (hfraction : IsFraction fraction) (hexponent : IsExponent exponent) {rest : List Char}
    (hrest : Delimited rest) :
    skipNumber (whole ++ (fraction ++ (exponent ++ rest))) = .ok rest := by
  have htail := skipFraction_of_isFraction hfraction hexponent hrest
  have hhead : NoDigit (fraction ++ (exponent ++ rest)) :=
    noDigit_of_head (hfraction.head_mem (hexponent.head_mem hrest)) (by simp)
  cases hwhole with
  | zero =>
    generalize fraction ++ (exponent ++ rest) = tail at htail hhead ⊢
    cases tail with
    | nil => exact htail
    | cons c tail =>
      have hc : c.isDigit = false := hhead c rfl
      simpa [skipNumber, hc] using htail
  | @digits d ds hd hne hds =>
    have hall : ∀ c ∈ d :: ds, c.isDigit = true := List.forall_mem_cons.2 ⟨hd, hds⟩
    have hdrop := dropWhile_digits hall hhead
    rw [List.cons_append, List.dropWhile_cons_of_pos hd] at hdrop
    simpa [skipNumber, hne, hd, hdrop] using htail

theorem skipNumber_of_isNumber {cs : List Char} (h : IsNumber cs) {rest : List Char}
    (hrest : Delimited rest) :
    ∃ c tail, cs ++ rest = c :: tail ∧
      ((c = '-' ∧ skipNumber tail = .ok rest) ∨
        (c.isDigit = true ∧ skipNumber (c :: tail) = .ok rest)) := by
  obtain ⟨hsign, hwhole, hfraction, hexponent⟩ := h
  have hskip := skipNumber_of_isWhole hwhole hfraction hexponent hrest
  simp only [List.mem_cons, List.not_mem_nil, or_false] at hsign
  obtain rfl | rfl := hsign
  · obtain ⟨c, tail, hwhole, hc⟩ := hwhole.exists_cons
    simp only [hwhole, List.nil_append, List.append_assoc, List.cons_append] at hskip ⊢
    exact ⟨c, _, rfl, .inr ⟨hc, hskip⟩⟩
  · refine ⟨'-', _, rfl, .inl ⟨rfl, ?_⟩⟩
    simpa using hskip

/-! ## Values -/

theorem colon_of_blank {blank : List Char} (hblank : IsBlank blank) (rest : List Char) :
    colon (blank ++ ':' :: rest) = .ok rest := by
  rw [colon, skipSpaces_blank_append hblank, skipSpaces_of_not_mem (by decide)]
  simp

theorem skipValue_blank_append {blank : List Char} (hblank : IsBlank blank) (fuel : Nat)
    (cs : List Char) : skipValue fuel (blank ++ cs) = skipValue fuel cs := by
  cases fuel with
  | zero => rfl
  | succ fuel => rw [skipValue, skipValue, skipSpaces_blank_append hblank]

theorem skipKey_of_isMember {key value cs : List Char} (h : IsMember key value cs)
    (hkey : IsQuotation key) (rest : List Char) :
    ∃ blank, IsBlank blank ∧ skipKey (cs ++ rest) = .ok (blank ++ (value ++ rest)) := by
  obtain ⟨before, after, hbefore, hafter, rfl⟩ := h
  refine ⟨after, hafter, ?_⟩
  obtain ⟨inner, hinner, hskip⟩ :=
    skipQuoted_of_isQuotation hkey (before ++ ':' :: (after ++ (value ++ rest)))
  simp only [List.append_assoc, List.cons_append, hinner, skipKey, hskip,
    colon_of_blank hbefore]

section

variable {fuel : Nat} {rest : List Char}

theorem skipValue_of_isNumber {cs : List Char} (h : IsNumber cs) (hrest : Delimited rest) :
    skipValue (fuel + 1) (cs ++ rest) = .ok rest := by
  rw [skipValue, skipSpaces_of_starts (h.starts.append rest)]
  obtain ⟨c, tail, hcs, ⟨rfl, hskip⟩ | ⟨hc, hskip⟩⟩ := skipNumber_of_isNumber h hrest
  · rw [hcs]
    exact hskip
  · have hnot : c ∉ ['n', 't', 'f', '-', '"', '[', '\x7b'] :=
      not_mem_of_isDigit hc (by simp)
    rw [hcs]
    simp only [List.mem_cons, List.not_mem_nil, or_false, not_or] at hnot
    split <;> simp_all

theorem skipValue_of_isQuotation {cs : List Char} (h : IsQuotation cs) :
    skipValue (fuel + 1) (cs ++ rest) = .ok rest := by
  obtain ⟨inner, hcs, hskip⟩ := skipQuoted_of_isQuotation h rest
  rw [skipValue, skipSpaces_of_starts (h.starts.append rest), hcs]
  exact hskip

theorem skipValue_of_array {values : List (List Char)} {cs : List Char}
    (hbrackets : Bracketed '[' ']' values cs) (hfuel : cs.length ≤ fuel)
    (hstarts : ∀ value ∈ values, Starts value)
    (hskip : ∀ value ∈ values, value.length < fuel → ∀ more, Delimited more →
      skipValue fuel (value ++ more) = .ok more) :
    skipValue (fuel + 1) (cs ++ rest) = .ok rest := by
  obtain ⟨inner, hinner, hentries⟩ := entries_of_steps hbrackets (by decide) hfuel rest
  have hself : List.Forall₂ Eq values values := List.forall₂_same.2 fun _ _ => rfl
  rw [skipValue, skipSpaces_of_starts ((hbrackets.starts (by decide)).append rest), hinner]
  refine congrArg (Except.map Prod.snd) (hentries (steps_of_forall₂ (fun _ => ()) hself ?_))
  rintro before value after - _ hvalue rfl
  have hlength := hbrackets.length_entry_lt hvalue
  refine ⟨hstarts value hvalue, fun more hmore => ?_⟩
  simp only [hskip value hvalue (by omega) more hmore, Except.map]

theorem skipValue_of_object {members : List (List Char × List Char)} {texts : List (List Char)}
    {cs : List Char} (hkeys : ∀ member ∈ members, IsQuotation member.1)
    (hmembers : List.Forall₂ (fun member => IsMember member.1 member.2) members texts)
    (hbrackets : Bracketed '\x7b' '\x7d' texts cs) (hfuel : cs.length ≤ fuel)
    (hskip : ∀ member ∈ members, member.2.length < fuel → ∀ more, Delimited more →
      skipValue fuel (member.2 ++ more) = .ok more) :
    skipValue (fuel + 1) (cs ++ rest) = .ok rest := by
  obtain ⟨inner, hinner, hentries⟩ := entries_of_steps hbrackets (by decide) hfuel rest
  rw [skipValue, skipSpaces_of_starts ((hbrackets.starts (by decide)).append rest), hinner]
  refine congrArg (Except.map Prod.snd) (hentries (steps_of_forall₂ (fun _ => ()) hmembers ?_))
  rintro before member after rfl text hmem htext
  have hmember : member ∈ before ++ member :: after := List.mem_append_cons_self
  have hlength := hbrackets.length_entry_lt hmem
  have hvalue := htext.length_value_le
  refine ⟨htext.starts (hkeys member hmember).starts, fun more hmore => ?_⟩
  obtain ⟨blank, hblank, hkey⟩ := skipKey_of_isMember htext (hkeys member hmember) more
  simp only [hkey, skipValue_blank_append hblank, hskip member hmember (by omega) more hmore,
    Except.map]

end

/-- A value is skipped as a whole, at any depth. -/
theorem skipValue_of_isValue {cs : List Char} (h : IsValue cs) {fuel : Nat}
    (hfuel : cs.length < fuel) {rest : List Char} (hrest : Delimited rest) :
    skipValue fuel (cs ++ rest) = .ok rest := by
  obtain ⟨fuel, rfl⟩ := Nat.exists_eq_add_one.2 (Nat.zero_lt_of_lt hfuel)
  induction h generalizing fuel rest with
  | null =>
    rw [skipValue, skipSpaces_of_starts (IsValue.null.starts.append rest)]
    exact word_self_append ['u', 'l', 'l'] rest
  | yes =>
    rw [skipValue, skipSpaces_of_starts (IsValue.yes.starts.append rest)]
    exact word_self_append ['r', 'u', 'e'] rest
  | no =>
    rw [skipValue, skipSpaces_of_starts (IsValue.no.starts.append rest)]
    exact word_self_append ['a', 'l', 's', 'e'] rest
  | number hnumber => exact skipValue_of_isNumber hnumber hrest
  | quotation hquotation => exact skipValue_of_isQuotation hquotation
  | array hvalues hbrackets ih =>
    refine skipValue_of_array hbrackets (Nat.le_of_lt_succ hfuel)
      (fun value hvalue => (hvalues value hvalue).starts) fun value hvalue hlength more hmore => ?_
    obtain ⟨fuel, rfl⟩ := Nat.exists_eq_add_one.2 (Nat.zero_lt_of_lt hlength)
    exact ih value hvalue hmore fuel hlength
  | object hkeys hvalues hmembers hbrackets ih =>
    refine skipValue_of_object hkeys hmembers hbrackets (Nat.le_of_lt_succ hfuel)
      fun member hmember hlength more hmore => ?_
    obtain ⟨fuel, rfl⟩ := Nat.exists_eq_add_one.2 (Nat.zero_lt_of_lt hlength)
    exact ih member hmember hmore fuel hlength

end PatternTable.Json
