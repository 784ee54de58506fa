import JsonSelect.Proofs.Cursor.ArrayIndexer

/-!
# Paths with a cursor

Segments hold indexers, indexers hold filters, filters hold conditions and conditions hold segments
again.  Each of the traced readers agrees with that of the grammar if the traced reader of
conditions does so one level further in (`ReadsConditions`), and what is shown of them in turn is
put together by induction on the levels that are left (`readsConditions_conditionReader`).

While a name is being read the loop over the segments only remembers where it started.  It agrees
with the grammar from that position on: the characters up to the cursor are name characters, and a
delimiter cuts them off as one name (`Agrees.addName`).

The calls that are needed go down from reader to reader, and by two for each character that is
passed: with `n` characters left, segments and the body of a condition need more than `2 * n`, an
indexer more than `2 * n - 1`, a condition more than `2 * n + 1` and conditions in a row more than
`2 * n + 2`.
-/

namespace JsonSelect

variable {text rest : List Char} {cursor : Cursor} {calls limit depth : Nat}
  {nested : ConditionReader} {inFilter descending afterIndexer : Bool}

/-- At a depth, the traced reader of conditions agrees with another one. -/
def ReadsConditions (text : List Char) (limit depth : Nat) (nested : ConditionReader) : Prop :=
  ∀ {calls cursor}, cursor.depth = depth → 2 * cursor.rest.length + 1 < calls →
    Agrees text (Traced.readCondition calls limit) cursor (nested.read cursor.rest) Leaves

/-! ### Filters -/

/-- A connective is passed, which is written once or twice. -/
theorem Agrees.passConnective {α γ : Type} {outcome : Except Failure α}
    {reads : α → γ → Cursor → Prop} {next : Unit → Traced γ} {c : Char}
    (hrest : cursor.rest = c :: rest)
    (h : ∀ after, cursor.Leads text after → after.rest = afterConnective c rest →
      Agrees text (next ()) after outcome reads) :
    Agrees text (Traced.passConnective c >>= next) cursor outcome reads := by
  have hpass : Agrees text (Traced.passConnective c) cursor (.ok ())
      fun _ _ after => after.rest = afterConnective c rest := by
    refine Agrees.advance hrest fun passed _ hpassed _ => ?_
    apply Agrees.current?
    rw [hpassed, afterConnective]
    by_cases htwice : rest.head? = some c
    · obtain ⟨more, rfl⟩ := List.head?_eq_some_iff.mp htwice
      have hadvance : Traced.advance = (do Traced.advance; return ()) := rfl
      rw [if_pos htwice, if_pos htwice, hadvance]
      exact Agrees.advance hpassed fun after _ hafter _ => Agrees.pure hafter
    · rw [if_neg htwice, if_neg htwice]
      exact Agrees.pure hpassed
  exact hpass.andThen fun _ after => h after

/-- The conditions of a filter stand in parentheses. -/
theorem readFilter_of_ne {close c : Char} (h : c ≠ '(') :
    readFilter nested close (c :: rest) = refuseInIndexer (c :: rest) := by
  unfold readFilter
  split
  · next heq => exact absurd (List.cons.inj heq).1 h
  · rfl

section

variable (hnested : ReadsConditions text limit depth nested)

include hnested

/-- Conditions in a row, behind those that have been read. -/
theorem agrees_readConditions {conditions : List Condition} (hdepth : cursor.depth = depth)
    (hcalls : 2 * cursor.rest.length + 2 < calls) :
    Agrees text (Traced.readConditions calls limit conditions) cursor
      (readConditions nested cursor.rest)
      fun found value after => value = conditions ++ found.1 ∧ after.rest = found.2 := by
  induction calls generalizing cursor conditions with
  | zero => exact absurd hcalls (Nat.not_lt_zero _)
  | succ calls ih =>
    rw [readConditions_eq_bind, Traced.readConditions]
    refine (hnested hdepth (Nat.lt_of_succ_lt_succ hcalls)).bind ?_
    rintro ⟨condition, remaining⟩ _ after hread hleads ⟨rfl, rfl⟩
    refine Agrees.ensure ?_ fun c rest hrest => ?_
    · intro hnil
      simp only [hnil, afterCondition]
    · have hshorter := nested.shortens hread
      simp only [hrest, List.length_cons, afterCondition] at hshorter ⊢
      by_cases hclose : c = ')'
      · rw [if_pos hclose, if_pos hclose]
        exact Agrees.advance hrest fun last _ hlast _ => Agrees.pure ⟨rfl, hlast⟩
      · rw [if_neg hclose, if_neg hclose]
        refine Agrees.passConnective hrest fun next hpassed hnext => ?_
        have hskip := length_afterConnective_le c rest
        rw [← hnext] at hskip ⊢
        refine Agrees.map (ih ?_ (by omega)) _ ?_
        · rw [hpassed.depth_eq, hleads.depth_eq, hdepth]
        · rintro found value last - ⟨rfl, hlast⟩
          exact ⟨List.append_assoc _ _ _, hlast⟩

/-- A filter, from its question mark to the closer. -/
theorem agrees_readFilter (close : Char) {c : Char} (hdepth : cursor.depth = depth)
    (hrest : cursor.rest = c :: rest) (hcalls : 2 * rest.length + 1 < calls) :
    Agrees text (Traced.readFilter calls limit close) cursor (readFilter nested close rest)
      (StopsBefore close) := by
  obtain ⟨calls, rfl⟩ := Nat.exists_eq_add_one_of_ne_zero (Nat.ne_zero_of_lt hcalls)
  rw [Traced.readFilter]
  refine Agrees.advance hrest fun passed hleads hpassed _ => ?_
  refine Agrees.ensure ?_ fun d more hmore => ?_
  · intro hnil
    rw [← hpassed, hnil]
    rfl
  · rw [← hpassed, hmore]
    rw [← hpassed, hmore, List.length_cons] at hcalls
    by_cases hopen : d = '('
    · subst hopen
      rw [if_pos rfl]
      refine Agrees.advance hmore fun inside hleads' hinside _ => ?_
      rw [readFilter, ← hinside]
      refine (agrees_readConditions hnested ?_ ?_).bind ?_
      · rw [hleads'.depth_eq, hleads.depth_eq, hdepth]
      · rw [hinside]
        omega
      · rintro ⟨conditions, remaining⟩ value after - - ⟨rfl, rfl⟩
        exact agrees_stopBehindSpaces close _
    · rw [if_neg hopen, readFilter_of_ne hopen]
      exact Agrees.fail hmore

/-- An indexer, from its opener to the closer that belongs to it. -/
theorem agrees_readIndexer {opening : Char} (hdepth : cursor.depth = depth)
    (hrest : cursor.rest = opening :: rest) (hcalls : 2 * rest.length + 1 < calls) :
    Agrees text (Traced.readIndexer calls limit opening) cursor
      (readIndexer nested (closerOf opening) rest) (StopsBefore (closerOf opening)) := by
  obtain ⟨calls, rfl⟩ := Nat.exists_eq_add_one_of_ne_zero (Nat.ne_zero_of_lt hcalls)
  rw [Traced.readIndexer]
  apply Agrees.of_inText
  intro hin
  apply Agrees.position
  refine Agrees.advance hrest fun passed hleads hpassed hbehind => ?_
  refine Agrees.ensure ?_ fun _ _ _ => ?_
  · intro hnil
    rw [← hpassed, hnil]
    rfl
  refine Agrees.skipSpaces fun inside hleads' hinside => ?_
  refine Agrees.ensure ?_ fun c more hmore => ?_
  · intro hnil
    rw [readIndexer, ← hpassed, ← hinside, hnil]
  apply Agrees.position
  -- whatever the indexer holds, it is recorded at its closer
  have hrecord (read : Selector × List Char) (selector : Selector) (after : Cursor)
      (hled : inside.Leads text after)
      (hstops : StopsBefore (closerOf opening) read selector after) :
      Agrees text
        (do
          Traced.record (.indexer opening cursor.position)
          return selector)
        after (.ok read) (StopsBefore (closerOf opening)) := by
    obtain ⟨hselector, hafter⟩ := hstops
    refine Agrees.record (fun hin' => ⟨?_, ?_, ?_⟩) fun last _ hlast => ?_
    · have hle := (hleads'.trans hled).position_le
      omega
    · rw [hin.getElem?_position, hrest]
      rfl
    · rw [hin'.getElem?_position, hafter]
      rfl
    · exact Agrees.pure ⟨hselector, (congrArg Place.rest hlast).trans hafter⟩
  have hskip := length_skipSpaces_le passed.rest
  rw [← hinside, hmore, hpassed, List.length_cons] at hskip
  rw [readIndexer_of_skipSpaces (by rw [← hpassed, ← hinside, hmore])]
  by_cases hquote : c = '\''
  · rw [if_pos hquote, if_pos hquote]
    exact (agrees_readQuotedName _ hmore (by omega)).bindSelf hrecord
  rw [if_neg hquote, if_neg hquote]
  by_cases hfilter : c = '?'
  · rw [if_pos hfilter, if_pos hfilter]
    refine (agrees_readFilter hnested _ ?_ hmore (by omega)).bindSelf hrecord
    rw [hleads'.depth_eq, hleads.depth_eq, hdepth]
  · rw [if_neg hfilter, if_neg hfilter, ← hmore]
    refine (agrees_readArrayIndexer (isCloser_closerOf opening) hleads'.inText ?_).bindSelf hrecord
    rw [hmore, List.length_cons]
    omega

end

/-! ### Segments -/

/-- The traced reader has read the same behind selectors that have been read before, and says
whether nothing remains. -/
def LeavesBehind (selectors : List Selector) (found : List Selector × List Char)
    (value : List Selector × Bool) (after : Cursor) : Prop :=
  value = (selectors ++ found.1, found.2.isEmpty) ∧ after.rest = found.2

/-- A selector that has been read comes in front of those that follow. -/
theorem LeavesBehind.cons {selectors : List Selector} {selector : Selector}
    {found : List Selector × List Char} {value : List Selector × Bool} {after : Cursor}
    (h : LeavesBehind (selectors ++ [selector]) found value after) :
    LeavesBehind selectors (selector :: found.1, found.2) value after := by
  obtain ⟨rfl, hafter⟩ := h
  exact ⟨congrArg (·, found.2.isEmpty) (List.append_assoc _ _ _), hafter⟩

/-- A path ends at a closer, at a space and, inside a condition, at an operator. -/
theorem endsPath_of_stop
    (h : ∀ c ∈ rest.head?, c ∈ [']', ')', ' '] ∨ inFilter = true ∧ c ∈ ['=', '<', '!', '>']) :
    EndsPath inFilter rest := by
  intro c hc
  rcases h c hc with hc | ⟨rfl, hc⟩
  · simp only [List.mem_cons, List.not_mem_nil, or_false] at hc
    rcases hc with rfl | rfl | rfl <;> simp [isNameChar]
  · simp only [List.mem_cons, List.not_mem_nil, or_false] at hc
    rcases hc with rfl | rfl | rfl | rfl <;> simp [isNameChar]

/-- A character at which the segments neither end nor are separated is part of a name. -/
theorem isNameChar_of_not_mem {c : Char} (hopen : ¬(c = '[' ∨ c = '('))
    (hclose : c ∉ [']', ')', ' ']) (hdot : c ≠ '.')
    (hoperator : ¬(inFilter = true ∧ c ∈ ['=', '<', '!', '>'])) :
    isNameChar inFilter c = true := by
  refine isNameChar_eq_true_iff.mpr ⟨?_, fun hin hmem => hoperator ⟨hin, hmem⟩⟩
  simp only [List.mem_cons, List.not_mem_nil, or_false, not_or] at hopen hclose ⊢
  exact ⟨hdot, hopen.1, hclose.1, hopen.2, hclose.2.1, hclose.2.2⟩

/-- There are no spaces at the end of a name, since there are none in it. -/
theorem rdropWhile_space_of_isNameChar {name : List Char}
    (h : ∀ c ∈ name, isNameChar inFilter c = true) : name.rdropWhile (· == ' ') = name := by
  refine List.rdropWhile_eq_self_iff.mpr fun hne hspace => ?_
  have hlast := h _ (List.getLast_mem hne)
  rw [eq_of_beq hspace] at hlast
  exact absurd hlast (by cases inFilter <;> decide)

section

variable {selectors : List Selector} {first : Nat} {word : List Char}
  (hpassed : cursor.HasPassed text (isNameChar inFilter) first word)

include hpassed

/-- What has been passed since the first position is added as a name, unless it is nothing. -/
theorem agrees_addName :
    Agrees text (Traced.addName selectors first descending) cursor (.ok ())
      fun _ added after => after.place = cursor.place ∧
        (word = [] ∧ added = (selectors, descending) ∨
          word ≠ [] ∧ added = (selectors ++ [bareName descending word], false)) := by
  apply Agrees.of_inText
  intro hin
  apply Agrees.position
  have hposition := hpassed.position_eq
  by_cases hempty : word = []
  · subst hempty
    rw [if_neg (show ¬first < cursor.position from Nat.not_lt.mpr hposition.ge)]
    exact Agrees.pure ⟨rfl, Or.inl ⟨rfl, rfl⟩⟩
  · have hlength := List.length_pos_of_ne_nil hempty
    rw [if_pos (by omega)]
    refine Agrees.textBetween hpassed.drop_eq hposition hin.2 fun after _ hplace => ?_
    rw [String.toList_ofList, rdropWhile_space_of_isNameChar hpassed.all]
    exact Agrees.pure ⟨hplace, Or.inr ⟨hempty, rfl⟩⟩

/-- The segments go on behind a name that has been added. -/
theorem Agrees.addName {next : List Selector × Bool → Traced (List Selector × Bool)}
    (hbehind : word ≠ [] → afterIndexer = false)
    (hstop : ∀ c ∈ cursor.rest.head?, isNameChar inFilter c = false)
    (h : ∀ selectors descending after, cursor.Leads text after → after.place = cursor.place →
      Agrees text (next (selectors, descending)) after
        (readSegments nested inFilter descending afterIndexer cursor.rest)
        (LeavesBehind selectors)) :
    Agrees text (Traced.addName selectors first descending >>= next) cursor
      (readSegments nested inFilter descending afterIndexer (text.drop first))
      (LeavesBehind selectors) := by
  refine (agrees_addName hpassed).andThen ?_
  rintro added after hleads ⟨hplace, ⟨hempty, rfl⟩ | ⟨hne, rfl⟩⟩
  · rw [hpassed.drop_eq, hempty, List.nil_append]
    exact h _ _ after hleads hplace
  · have hafter := h (selectors ++ [bareName descending word]) false after hleads hplace
    rw [hbehind hne] at hafter ⊢
    rw [hpassed.drop_eq, readSegments_name hne hpassed.all hstop]
    exact hafter.map _ fun _ _ _ _ hread => hread.cons

/-- A path ends where its segments do, and says whether that is the end of the text. -/
theorem agrees_finishPath (hbehind : word ≠ [] → afterIndexer = false)
    (hstop : ∀ c ∈ cursor.rest.head?,
      c ∈ [']', ')', ' '] ∨ inFilter = true ∧ c ∈ ['=', '<', '!', '>']) :
    Agrees text (Traced.finishPath inFilter selectors first descending) cursor
      (readSegments nested inFilter descending afterIndexer (text.drop first))
      (LeavesBehind selectors) := by
  have hends : EndsPath inFilter cursor.rest := endsPath_of_stop hstop
  refine Agrees.addName hpassed hbehind (fun c hc => (hends c hc).2.2.2) ?_
  intro selectors descending after _ hplace
  have hafter : after.rest = cursor.rest := congrArg Place.rest hplace
  rw [readSegments_of_endsPath hends]
  apply Agrees.current?
  refine Agrees.record (fun hin => ⟨fun hcomplete => ?_, fun hincomplete => ?_⟩)
    fun last _ hlast => ?_
  · have hlength := hin.position_add_length
    rw [List.head?_eq_none_iff.mp (Option.isNone_iff_eq_none.mp hcomplete)] at hlength
    exact hlength
  · obtain ⟨c, hc⟩ := Option.isSome_iff_exists.mp (Option.isNone_eq_false_iff.mp hincomplete)
    exact ⟨c, hin.getElem?_position.trans hc, hstop c (hafter ▸ hc)⟩
  · refine Agrees.pure ⟨?_, (congrArg Place.rest hlast).trans hafter⟩
    rw [hafter, List.append_nil]
    cases cursor.rest <;> rfl

end

/-! ### Segments behind a delimiter -/

/-- A dot is passed, or two. -/
theorem Agrees.passDots {α γ : Type} {outcome : Except Failure α}
    {reads : α → γ → Cursor → Prop} {next : Bool → Traced γ} (hrest : cursor.rest = '.' :: rest)
    (hsingle : ∀ after, cursor.Leads text after → rest.head? ≠ some '.' → after.rest = rest →
      Agrees text (next false) after outcome reads)
    (hdouble : ∀ after, cursor.Leads text after → rest = '.' :: after.rest →
      Agrees text (next true) after outcome reads) :
    Agrees text (Traced.passDots >>= next) cursor outcome reads := by
  have hpass : Agrees text Traced.passDots cursor (.ok ()) fun _ double after =>
      double = false ∧ rest.head? ≠ some '.' ∧ after.rest = rest ∨
        double = true ∧ rest = '.' :: after.rest := by
    apply Agrees.peek?
    have hpeek : cursor.rest[1]? = rest.head? := by
      rw [hrest, List.getElem?_cons_succ, List.head?_eq_getElem?]
    rw [hpeek]
    by_cases htwice : rest.head? = some '.'
    · obtain ⟨more, hmore⟩ := List.head?_eq_some_iff.mp htwice
      rw [if_pos htwice]
      refine Agrees.advance hrest fun passed _ hpassed _ => ?_
      refine Agrees.advance (hpassed.trans hmore) fun after _ hafter _ => ?_
      exact Agrees.pure (Or.inr ⟨rfl, hafter ▸ hmore⟩)
    · rw [if_neg htwice]
      exact Agrees.advance hrest fun after _ hafter _ => Agrees.pure (Or.inl ⟨rfl, htwice, hafter⟩)
  refine hpass.andThen ?_
  rintro double after hleads (⟨rfl, hhead, hafter⟩ | ⟨rfl, hafter⟩)
  · exact hsingle after hleads hhead hafter
  · exact hdouble after hleads hafter

section

variable {selectors : List Selector} (hdepth : cursor.depth = depth)
  (hstart : ∀ {selectors descending afterIndexer after}, after.InText text → after.depth = depth →
    2 * after.rest.length < calls →
    Agrees text
      (Traced.readSegments calls limit inFilter selectors after.position descending afterIndexer)
      after (readSegments nested inFilter descending afterIndexer after.rest)
      (LeavesBehind selectors))

include hdepth hstart

/-- An indexer is read, its closer is passed, and the segments go on. -/
theorem agrees_readSegments_opener (hnested : ReadsConditions text limit depth nested) {c : Char}
    (hopen : c = '[' ∨ c = '(') (hrest : cursor.rest = c :: rest)
    (hcalls : 2 * rest.length + 1 < calls) :
    Agrees text
      (do
        let selector ← Traced.readIndexer calls limit c
        Traced.advance
        let first ← Traced.position
        Traced.readSegments calls limit inFilter (selectors ++ [selector]) first descending true)
      cursor (readSegments nested inFilter descending afterIndexer (c :: rest))
      (LeavesBehind selectors) := by
  rw [readSegments_opener hopen]
  refine (agrees_readIndexer hnested hdepth hrest hcalls).bind ?_
  rintro ⟨selector, remaining⟩ _ closed hread hleads ⟨rfl, hclosed⟩
  have hshorter := length_lt_of_readIndexer hread
  refine Agrees.advance hclosed fun after hleads' hafter _ => ?_
  apply Agrees.position
  obtain rfl : after.rest = remaining := hafter
  refine (hstart hleads'.inText ?_ (by omega)).map _ fun _ _ _ _ hfound => hfound.cons
  rw [hleads'.depth_eq, hleads.depth_eq, hdepth]

/-- A dot is passed, or two, and the segments go on. -/
theorem agrees_readSegments_dot (hrest : cursor.rest = '.' :: rest)
    (hcalls : 2 * rest.length < calls) :
    Agrees text
      (do
        let double ← Traced.passDots
        let first ← Traced.position
        Traced.readSegments calls limit inFilter selectors first (double || descending) false)
      cursor (readSegments nested inFilter descending afterIndexer ('.' :: rest))
      (LeavesBehind selectors) := by
  refine Agrees.passDots hrest (fun after hleads hhead hafter => ?_) fun after hleads hafter => ?_
  · apply Agrees.position
    rw [readSegments_dot hhead, ← hafter]
    exact hstart hleads.inText (hleads.depth_eq.trans hdepth) (hafter ▸ hcalls)
  · apply Agrees.position
    rw [hafter, readSegments_dots]
    rw [hafter, List.length_cons] at hcalls
    exact hstart hleads.inText (hleads.depth_eq.trans hdepth) (by omega)

end

section

variable (hnested : ReadsConditions text limit depth nested)

include hnested

/-- The segments of a path, behind selectors that have been read and the start of a name.  What has
been passed since the first position are name characters, and no indexer stands directly before
them. -/
theorem agrees_readSegments_within {selectors : List Selector} {first : Nat} {word : List Char}
    (hdepth : cursor.depth = depth)
    (hpassed : cursor.HasPassed text (isNameChar inFilter) first word)
    (hbehind : word ≠ [] → afterIndexer = false) (hcalls : 2 * cursor.rest.length < calls) :
    Agrees text
      (Traced.readSegments calls limit inFilter selectors first descending afterIndexer) cursor
      (readSegments nested inFilter descending afterIndexer (text.drop first))
      (LeavesBehind selectors) := by
  induction calls generalizing cursor selectors first word descending afterIndexer with
  | zero => exact absurd hcalls (Nat.not_lt_zero _)
  | succ calls ih =>
    -- behind a delimiter a name may start where the cursor stands
    have hstart {selectors : List Selector} {descending afterIndexer : Bool} {after : Cursor}
        (hin : after.InText text) (hdepth : after.depth = depth)
        (hcalls : 2 * after.rest.length < calls) :
        Agrees text
          (Traced.readSegments calls limit inFilter selectors after.position descending
            afterIndexer)
          after (readSegments nested inFilter descending afterIndexer after.rest)
          (LeavesBehind selectors) := by
      rw [hin.rest_eq]
      exact ih hdepth (.nil hin) (absurd rfl) hcalls
    rw [Traced.readSegments]
    apply Agrees.current?
    cases hrest : cursor.rest with
    | nil =>
      refine agrees_finishPath hpassed hbehind ?_
      rw [hrest]
      rintro _ ⟨⟩
    | cons c rest =>
      rw [hrest, List.length_cons] at hcalls
      simp only [List.head?_cons]
      by_cases hopen : c = '[' ∨ c = '('
      · rw [if_pos hopen]
        have hstop : isNameChar inFilter c = false := by
          rcases hopen with rfl | rfl <;> rfl
        refine Agrees.addName hpassed hbehind (Cursor.forall_head?_rest hrest hstop) ?_
        intro selectors descending added hleads hplace
        rw [hrest]
        exact agrees_readSegments_opener (hleads.depth_eq.trans hdepth) hstart hnested hopen
          ((congrArg Place.rest hplace).trans hrest) (by omega)
      rw [if_neg hopen]
      by_cases hclose : c ∈ [']', ')', ' ']
      · rw [if_pos hclose]
        exact agrees_finishPath hpassed hbehind (Cursor.forall_head?_rest hrest (Or.inl hclose))
      rw [if_neg hclose]
      by_cases hdot : c = '.'
      · subst hdot
        rw [if_pos rfl]
        refine Agrees.addName hpassed hbehind (Cursor.forall_head?_rest hrest rfl) ?_
        intro selectors descending added hleads hplace
        rw [hrest]
        exact agrees_readSegments_dot (hleads.depth_eq.trans hdepth) hstart
          ((congrArg Place.rest hplace).trans hrest) (by omega)
      rw [if_neg hdot]
      by_cases hoperator : inFilter = true ∧ c ∈ ['=', '<', '!', '>']
      · rw [if_pos hoperator]
        exact agrees_finishPath hpassed hbehind (Cursor.forall_head?_rest hrest (Or.inr hoperator))
      rw [if_neg hoperator]
      have hc := isNameChar_of_not_mem hopen hclose hdot hoperator
      cases afterIndexer with
      | true =>
        have hempty : word = [] := by
          by_contra hne
          exact absurd (hbehind hne) Bool.false_ne_true.symm
        rw [if_pos rfl, hpassed.drop_eq, hempty, List.nil_append, hrest,
          readSegments_name_afterIndexer hc]
        exact Agrees.fail hrest
      | false =>
        rw [if_neg Bool.false_ne_true]
        refine Agrees.advance hrest fun after hleads hafter hposition => ?_
        refine ih (hleads.depth_eq.trans hdepth) (hpassed.concat hrest hc hafter hposition)
          (fun _ => rfl) ?_
        rw [hafter]
        omega

/-- The segments of a path, from where the cursor stands. -/
theorem agrees_readSegments (hdepth : cursor.depth = depth)
    (hcalls : 2 * cursor.rest.length < calls) :
    Agrees text (Traced.readSegments calls limit inFilter [] cursor.position false false) cursor
      (readSegments nested inFilter false false cursor.rest)
      fun found value after => value = (found.1, found.2.isEmpty) ∧ after.rest = found.2 := by
  apply Agrees.of_inText
  intro hin
  rw [hin.rest_eq]
  exact agrees_readSegments_within hnested hdepth (.nil hin) (absurd rfl) hcalls

end

/-! ### Conditions -/

/-- The traced reader has read the same, and has come to a character that is no space. -/
def LeavesNoSpace (read : Condition × List Char) (condition : Condition) (after : Cursor) : Prop :=
  Leaves read condition after ∧ ∃ c ∈ after.rest.head?, c ≠ ' '

/-- What follows the path of a condition. -/
theorem agrees_readComparison (path : List Selector) (hcalls : cursor.rest.length < calls) :
    Agrees text (Traced.readComparison calls path) cursor (readComparison path cursor.rest)
      LeavesNoSpace := by
  refine Agrees.skipSpaces fun found _ hfound => ?_
  refine Agrees.ensure ?_ fun c rest hrest => ?_
  · intro hnil
    rw [readComparison, ← hfound, hnil]
  have hskip : skipSpaces cursor.rest = c :: rest := hfound.symm.trans hrest
  rw [readComparison_of_skipSpaces hskip]
  by_cases hpresence : c = ')'
  · rw [if_pos hpresence, if_pos hpresence]
    refine Agrees.pure ⟨⟨rfl, hrest⟩, c, ?_, ?_⟩
    · rw [hrest]
      rfl
    · rw [hpresence]
      decide
  rw [if_neg hpresence, if_neg hpresence, ← hrest]
  refine agrees_readOperator.bind ?_
  rintro ⟨operator, remaining⟩ _ behind hoperator - ⟨rfl, rfl⟩
  refine Agrees.skipSpaces fun before _ hbefore => ?_
  simp only [afterOperator]
  rw [← hbefore]
  refine Agrees.ensure ?_ fun d more hmore => ?_
  · intro hnil
    rw [hnil]
    rfl
  have hcalls' : before.rest.length < calls := by
    have h₁ := length_skipSpaces_le cursor.rest
    have h₂ := length_lt_of_readOperator hoperator
    have h₃ := length_skipSpaces_le behind.rest
    rw [← hfound] at h₁
    rw [← hbefore] at h₃
    omega
  rw [if_neg (by simp [hmore])]
  refine (agrees_readLiteral hcalls').bind ?_
  rintro ⟨literal, remaining⟩ _ after - - ⟨rfl, rfl⟩
  refine Agrees.skipSpaces fun last _ hlast => ?_
  dsimp only
  rw [← hlast]
  refine Agrees.ensure ?_ fun e rest hrest => ?_
  · intro hnil
    rw [hnil]
    rfl
  · rw [if_neg (by simp [hrest])]
    refine Agrees.pure ⟨⟨rfl, rfl⟩, e, ?_, ?_⟩
    · rw [hrest]
      rfl
    · rintro rfl
      exact skipSpaces_ne_space_cons _ _ (hlast.symm.trans hrest)

/-- The traced reader has read the same condition, and stands behind it. -/
def PassesCondition (text : List Char) (first : Nat) (read : Condition × List Char)
    (condition : Condition) (after : Cursor) : Prop :=
  Leaves read condition after ∧ IsBehindCondition text first after.position

/-- Only spaces have been passed where spaces are skipped. -/
theorem getElem?_of_skipSpaces {after : Cursor} (hin : cursor.InText text)
    (hin' : after.InText text) (hafter : after.rest = skipSpaces cursor.rest) {index : Nat}
    (hfirst : cursor.position ≤ index) (hlast : index < after.position) :
    text[index]? = some ' ' := by
  obtain ⟨spaces, hspaces, hblank⟩ := exists_isBlank_append_skipSpaces cursor.rest
  have hlength := congrArg List.length hspaces
  have hposition := hin.position_add_length
  have hposition' := hin'.position_add_length
  rw [← hafter, List.length_append] at hlength
  have hinside : index - cursor.position < spaces.length := by omega
  have hdrop : text[index]? = cursor.rest[index - cursor.position]? := by
    rw [hin.rest_eq, List.getElem?_drop, Nat.add_sub_of_le hfirst]
  rw [hdrop, hspaces, List.getElem?_append_left hinside, List.getElem?_eq_getElem hinside]
  exact congrArg some (hblank _ (List.getElem_mem hinside))

/-- A condition at the depth that has been reached. -/
theorem agrees_readConditionBody (hnested : ReadsConditions text limit depth nested)
    (hdepth : cursor.depth = depth) (hcalls : 2 * cursor.rest.length < calls) :
    Agrees text (Traced.readConditionBody calls limit) cursor (readCondition nested cursor.rest)
      (PassesCondition text cursor.position) := by
  obtain ⟨calls, rfl⟩ := Nat.exists_eq_add_one_of_ne_zero (Nat.ne_zero_of_lt hcalls)
  rw [Traced.readConditionBody]
  apply Agrees.of_inText
  intro hin
  refine Agrees.skipSpaces fun found hskipped hfound => ?_
  refine Agrees.ensure ?_ fun c rest hrest => ?_
  · intro hnil
    rw [readCondition, ← hfound, hnil]
  rw [readCondition_of_skipSpaces (hfound.symm.trans hrest)]
  by_cases hat : c = '@'
  · subst hat
    rw [if_pos rfl, if_pos rfl]
    have hskip := length_skipSpaces_le cursor.rest
    rw [← hfound, hrest, List.length_cons] at hskip
    refine Agrees.advance hrest fun passed hstarted hpassed hbehind => ?_
    apply Agrees.position
    rw [← hpassed]
    have hdepth' : passed.depth = depth := by
      rw [hstarted.depth_eq, hskipped.depth_eq, hdepth]
    rw [← hpassed] at hskip
    refine (agrees_readSegments hnested hdepth' (by omega)).bind ?_
    rintro ⟨path, remaining⟩ _ after hread hpath ⟨rfl, rfl⟩
    dsimp only
    cases hempty : after.rest.isEmpty with
    | true =>
      rw [if_pos rfl, List.isEmpty_iff.mp hempty]
      exact Agrees.fail (List.isEmpty_iff.mp hempty)
    | false =>
      rw [if_neg Bool.false_ne_true]
      have hshorter := length_le_of_readSegments hread
      refine (agrees_readComparison path (by omega)).imp ?_
      rintro read condition last hcompared ⟨hread, c, hc, hspace⟩
      have hfirst := hskipped.position_le
      have hlast := (hpath.trans hcompared).position_le
      refine ⟨hread, ⟨found.position, hfirst, by omega, ?_, ?_⟩, c, ?_, hspace⟩
      · rw [hskipped.inText.getElem?_position, hrest]
        rfl
      · exact fun index => getElem?_of_skipSpaces hin hskipped.inText hfound
      · rw [hcompared.inText.getElem?_position]
        exact hc
  · rw [if_neg hat, if_neg hat]
    exact Agrees.fail hrest

/-- A reading one level deeper leaves the depth as it was. -/
theorem agrees_deeper {α γ : Type} {outcome : Except Failure α} {reads : α → γ → Cursor → Prop}
    {reader : Traced γ}
    (h : Agrees text reader { cursor with depth := cursor.depth + 1 } outcome
      fun a c after => reads a c { after with depth := cursor.depth }) :
    Agrees text (Traced.deeper reader) cursor outcome reads := by
  intro hin
  obtain ⟨result, after, hrun, hleads, hresult⟩ := h hin
  have hdepth : after.depth - 1 = cursor.depth := by
    rw [hleads.depth_eq]
    rfl
  have hdeeper : Traced.deeper reader cursor =
      some (result, { after with depth := cursor.depth }) := by
    rw [Traced.deeper, hrun, ← hdepth]
    rfl
  exact ⟨_, _, hdeeper, hleads.restoreDepth, hresult.imp fun _ _ => id⟩

/-- The end of a condition is recorded where the cursor stands then. -/
theorem agrees_recordCondition {reader : Traced Condition} {outcome : Reading Condition}
    (h : Agrees text reader cursor outcome (PassesCondition text cursor.position)) :
    Agrees text (Traced.recordCondition reader) cursor outcome Leaves := by
  intro hin
  obtain ⟨result, after, hrun, hleads, hresult⟩ := h hin
  have hrecord : Traced.recordCondition reader cursor = some (result,
      after.record (.condition result.isOk cursor.position cursor.depth after.depth)) := by
    rw [Traced.recordCondition, hrun]
    rfl
  have hbehind : result.isOk = true → IsBehindCondition text cursor.position after.position := by
    intro hok
    rcases outcome with failure | read <;> rcases result with error | condition
    · contradiction
    · exact hresult.elim
    · contradiction
    · exact hresult.2
  have hproper : (TraceEvent.condition result.isOk cursor.position cursor.depth
      after.depth).Proper text after.position := ⟨hleads.depth_eq, hbehind⟩
  have hrecorded := Cursor.leads_record hleads.inText hproper
  exact ⟨_, _, hrecord, hleads.trans hrecorded, hresult.imp fun _ _ => And.left⟩

/-- With so many levels left, conditions are read as by the grammar. -/
theorem readsConditions_conditionReader (levels : Nat) (h : depth + levels = limit) :
    ReadsConditions text limit depth (conditionReader limit levels) := by
  induction levels generalizing depth with
  | zero =>
    intro calls cursor hdepth hcalls
    obtain ⟨calls, rfl⟩ := Nat.exists_eq_add_one_of_ne_zero (Nat.ne_zero_of_lt hcalls)
    apply agrees_recordCondition
    apply Agrees.depth
    rw [if_pos (by omega)]
    exact Agrees.fail rfl
  | succ levels ih =>
    intro calls cursor hdepth hcalls
    obtain ⟨calls, rfl⟩ := Nat.exists_eq_add_one_of_ne_zero (Nat.ne_zero_of_lt hcalls)
    apply agrees_recordCondition
    apply Agrees.depth
    rw [if_neg (by omega)]
    apply agrees_deeper
    have hnested := @ih (depth + 1) (by omega)
    exact agrees_readConditionBody hnested (congrArg (· + 1) hdepth) (Nat.lt_of_succ_lt_succ hcalls)

end JsonSelect
