import JsonSelect.Proofs.Grammar.ArrayIndexer
import JsonSelect.Proofs.Cursor.Words

/-!
# Array indexers with a cursor

The grammar reads an array indexer index by index, with one reader for each of the places in which
an index can stand.  The traced reader is a single loop that passes one character after the other
and remembers in an `ArrayProgress` where it is.

The two meet at the delimiters.  From the start of an index the loop passes the index characters and
the spaces behind them, and comes to what the grammar finds there (`agrees_readArrayIndexer_start`).
What happens at the delimiter depends on the progress: behind a comma the loop agrees with the
reader of a list, behind one colon with that of the end of a slice, behind two with that of the
step, and otherwise with the reader of array indexers.

At most two calls are needed for a character, one in the loop and one at a delimiter.
-/

namespace JsonSelect

variable {α : Type} {text rest : List Char} {cursor : Cursor} {calls start last : Nat}
  {close : Char} {selector : Selector}

/-! ### Indexes -/

/-- Whether the index characters from one position on end at another one. -/
def IsIndexSpan (text : List Char) (start last : Nat) : Prop :=
  start + (indexWord (text.drop start)).length = last

/-- From a position on, there are index characters and what follows them. -/
theorem drop_eq_indexWord_append (text : List Char) (start : Nat) :
    text.drop start = indexWord (text.drop start) ++ (text.drop start).dropWhile isIndexChar :=
  List.takeWhile_append_dropWhile.symm

/-- There are index characters if the positions differ. -/
theorem IsIndexSpan.isEmpty_iff (h : IsIndexSpan text start last) :
    (indexWord (text.drop start)).isEmpty = true ↔ last ≤ start := by
  rw [List.isEmpty_iff, ← List.length_eq_zero_iff, ← h]
  omega

/-- An index between two positions is read as the grammar reads it from the first one. -/
theorem agrees_readIndex (hspan : IsIndexSpan text start last) (hlast : last ≤ cursor.position) :
    Agrees text (Traced.readIndex start last) cursor (readIndex (text.drop start))
      (Stays cursor) := by
  apply Agrees.of_inText
  intro hin
  have hlength : last ≤ text.length := hlast.trans hin.2
  have hstart : start ≤ text.length := le_trans (hspan ▸ Nat.le_add_right start _) hlength
  unfold Traced.readIndex readIndex
  by_cases hempty : last ≤ start
  · rw [if_pos hempty]
    simp only [hspan.isEmpty_iff.mpr hempty, if_true]
    exact Agrees.failAt hstart
  · rw [if_neg hempty]
    simp only [mt hspan.isEmpty_iff.mp hempty]
    refine Agrees.textBetween (drop_eq_indexWord_append text start) hspan hlength
      fun after _ hplace => ?_
    rw [String.toList_ofList]
    cases readInt64 (indexWord (text.drop start)) with
    | some index => exact Agrees.pure ⟨rfl, hplace⟩
    | none => exact Agrees.failAt hstart

/-- An index that is stored, or none, which leaves its slot as it was. -/
theorem agrees_storeBound {progress : ArrayProgress}
    (hspan : IsIndexSpan text progress.start last) (hlast : last ≤ cursor.position)
    (hcolons : progress.colons ≤ 2)
    (hnone : progress.bounds.setIfInBounds progress.colons none = progress.bounds) :
    Agrees text (Traced.storeBound progress last) cursor
      (readOptionalIndex (text.drop progress.start))
      fun bound bounds after =>
        bounds = progress.bounds.setIfInBounds progress.colons bound ∧
          after.place = cursor.place := by
  unfold Traced.storeBound readOptionalIndex
  by_cases hempty : last ≤ progress.start
  · rw [if_neg (Nat.not_lt.mpr hempty), if_pos (hspan.isEmpty_iff.mpr hempty)]
    exact Agrees.pure ⟨hnone.symm, rfl⟩
  · rw [if_pos (Nat.not_le.mp hempty), if_neg (mt hspan.isEmpty_iff.mp hempty)]
    refine (agrees_readIndex hspan hlast).bindMap fun index value after _ hread => ?_
    obtain ⟨rfl, hplace⟩ := hread
    refine Agrees.record (fun _ => hcolons) fun recorded _ hrecorded => ?_
    exact Agrees.pure ⟨rfl, hrecorded.trans hplace⟩

/-! ### Up to the delimiter -/

/-- A run of index characters is over where another character follows, or none. -/
theorem isIndexSpan_of_hasPassed {word : List Char}
    (hpassed : cursor.HasPassed text isIndexChar start word)
    (hrest : ∀ c ∈ cursor.rest.head?, isIndexChar c = false) :
    IsIndexSpan text start cursor.position ∧
      afterIndexWord (text.drop start) = skipSpaces cursor.rest := by
  constructor
  · rw [IsIndexSpan, indexWord, hpassed.takeWhile_eq hrest, hpassed.position_eq]
  · rw [afterIndexWord, hpassed.dropWhile_eq hrest]

section

variable {progress : ArrayProgress} {outcome : Reading α}
  {reads : α × List Char → Selector → Cursor → Prop}
  (hnil : afterIndexWord (text.drop progress.start) = [] → outcome = refuseInIndexer [])
  (hindex : ∀ {c rest}, afterIndexWord (text.drop progress.start) = c :: rest →
    isIndexChar c = true → outcome = refuseInIndexer (c :: rest))
  (hdelimiter : ∀ {calls after last c rest},
    afterIndexWord (text.drop progress.start) = c :: rest → after.rest = c :: rest →
    isIndexChar c = false → IsIndexSpan text progress.start last → last ≤ after.position →
    2 * rest.length + 1 < calls →
    Agrees text (Traced.readAtDelimiter calls close progress last c) after outcome reads)

include hnil hindex hdelimiter

/-- Behind an index that has been followed by a space comes a delimiter, or something that cannot
stand there. -/
theorem agrees_readArrayIndexer_afterSpace (hspan : IsIndexSpan text progress.start last)
    (hlast : last ≤ cursor.position)
    (hrest : cursor.rest = afterIndexWord (text.drop progress.start))
    (hcalls : 2 * cursor.rest.length < calls) :
    Agrees text (Traced.readArrayIndexer calls close progress (some last)) cursor outcome
      reads := by
  cases calls with
  | zero => exact absurd hcalls (Nat.not_lt_zero _)
  | succ calls =>
    apply Agrees.current?
    rw [← hrest] at hnil hindex hdelimiter
    cases hd : cursor.rest with
    | nil =>
      rw [hnil hd]
      exact Agrees.fail hd
    | cons c rest =>
      rw [hd, List.length_cons] at hcalls
      have hspace : c ≠ ' ' := by
        rintro rfl
        exact skipSpaces_ne_space_cons _ _ (hrest.symm.trans hd)
      apply Agrees.position
      simp only [if_neg hspace]
      by_cases hc : isIndexChar c = true
      · rw [if_pos hc, hindex hd hc]
        exact Agrees.fail hd
      · rw [if_neg hc]
        exact hdelimiter hd hd (eq_false_of_ne_true hc) hspan hlast (by omega)

/-- From the start of an index the loop comes to the character behind it and the spaces that
follow. -/
theorem agrees_readArrayIndexer_within {word : List Char}
    (hpassed : cursor.HasPassed text isIndexChar progress.start word)
    (hcalls : 2 * cursor.rest.length < calls) :
    Agrees text (Traced.readArrayIndexer calls close progress none) cursor outcome reads := by
  induction calls generalizing cursor word with
  | zero => exact absurd hcalls (Nat.not_lt_zero _)
  | succ calls ih =>
    apply Agrees.current?
    cases hd : cursor.rest with
    | nil =>
      have hbehind := (isIndexSpan_of_hasPassed hpassed (by simp [hd])).2
      rw [hd, skipSpaces_nil] at hbehind
      rw [hnil hbehind]
      exact Agrees.fail hd
    | cons c rest =>
      rw [hd, List.length_cons] at hcalls
      apply Agrees.position
      by_cases hspace : c = ' '
      · rw [if_pos hspace]
        have hhead : isIndexChar c = false := by
          rw [hspace]
          decide
        obtain ⟨hspan, hbehind⟩ :=
          isIndexSpan_of_hasPassed hpassed (Cursor.forall_head?_rest hd hhead)
        refine Agrees.skipSpaces fun after hleads hafter => ?_
        apply agrees_readArrayIndexer_afterSpace hnil hindex hdelimiter hspan hleads.position_le
        · rw [hafter, hbehind]
        · have hskip := length_skipSpaces_le rest
          rw [hafter, hd, hspace, skipSpaces_space_cons]
          omega
      rw [if_neg hspace]
      by_cases hc : isIndexChar c = true
      · rw [if_pos hc, if_neg (by simp)]
        refine Agrees.advance hd fun after _ hafter hmoved => ?_
        refine ih (hpassed.concat hd hc hafter hmoved) ?_
        rw [hafter]
        omega
      · rw [if_neg hc]
        have hhead : isIndexChar c = false := eq_false_of_ne_true hc
        obtain ⟨hspan, hbehind⟩ :=
          isIndexSpan_of_hasPassed hpassed (Cursor.forall_head?_rest hd hhead)
        rw [hd, skipSpaces_cons_of_ne hspace] at hbehind
        exact hdelimiter hbehind hd hhead hspan le_rfl (by omega)

end

section

variable {progress : ArrayProgress} {outcome : Reading α}
  {reads : α × List Char → Selector → Cursor → Prop}

/-- At the start of an index, what follows the index decides. -/
theorem agrees_readArrayIndexer_start (hin : cursor.InText text)
    (hstart : progress.start = cursor.position) (hcalls : 2 * cursor.rest.length < calls)
    (hnil : afterIndexWord cursor.rest = [] → outcome = refuseInIndexer [])
    (hindex : ∀ {c rest}, afterIndexWord cursor.rest = c :: rest → isIndexChar c = true →
      outcome = refuseInIndexer (c :: rest))
    (hdelimiter : ∀ {calls after last c rest},
      afterIndexWord cursor.rest = c :: rest → after.rest = c :: rest →
      isIndexChar c = false → IsIndexSpan text progress.start last → last ≤ after.position →
      2 * rest.length + 1 < calls →
      Agrees text (Traced.readAtDelimiter calls close progress last c) after outcome reads) :
    Agrees text (Traced.readArrayIndexer calls close progress none) cursor outcome reads := by
  have hwhole : text.drop progress.start = cursor.rest := by
    rw [hstart, hin.rest_eq]
  rw [← hwhole] at hnil hindex hdelimiter
  have hpassed : cursor.HasPassed text isIndexChar progress.start [] := by
    rw [hstart]
    exact .nil hin
  exact agrees_readArrayIndexer_within hnil hindex hdelimiter hpassed hcalls

end

/-! ### At the delimiter -/

/-- What ends an index is not part of one. -/
theorem EndsIndex.ne_of_isIndexChar {c d : Char} (h : EndsIndex d) (hc : isIndexChar c = true) :
    c ≠ d := by
  rintro rfl
  exact absurd hc (by simp [h.1])

/-- The next index starts behind the delimiter and the spaces that follow it. -/
theorem agrees_passDelimiter {outcome : Reading α}
    {reads : α × List Char → Selector → Cursor → Prop} {next : Nat → Traced Selector} {c : Char}
    (hrest : cursor.rest = c :: rest)
    (h : ∀ after, after.InText text → after.rest = skipSpaces rest →
      Agrees text (next after.position) after outcome reads) :
    Agrees text
      (do
        Traced.advance
        Traced.skipSpaces
        let start ← Traced.position
        next start)
      cursor outcome reads := by
  refine Agrees.advance hrest fun passed _ hpassed _ => ?_
  refine Agrees.skipSpaces fun after hleads hafter => ?_
  apply Agrees.position
  rw [hpassed] at hafter
  exact h after hleads.inText hafter

/-- A slice is complete before its closer. -/
theorem agrees_finishSlice (first stop step : Option Int64) (hrest : cursor.rest = close :: rest) :
    Agrees text (Traced.finishSlice #v[first, stop, step]) cursor
      (if step = some 0 then .error ⟨.zeroStep, close :: rest⟩
        else .ok (.slice first stop step, rest))
      (StopsBefore close) := by
  have hfinish : Traced.finishSlice #v[first, stop, step] =
      if step = some 0 then Traced.fail .zeroStep else pure (.slice first stop step) := rfl
  rw [hfinish]
  by_cases hstep : step = some 0
  · rw [if_pos hstep, if_pos hstep]
    exact Agrees.fail hrest
  · rw [if_neg hstep, if_neg hstep]
    exact Agrees.pure ⟨rfl, hrest⟩

section

variable (hclose : IsCloser close) (hin : cursor.InText text)
  (hcalls : 2 * cursor.rest.length < calls)

include hclose hin hcalls

/-- The step of a slice. -/
theorem agrees_readArrayIndexer_step (first stop : Option Int64) :
    Agrees text
      (Traced.readArrayIndexer calls close ⟨cursor.position, none, 2, #v[first, stop, none]⟩ none)
      cursor (readStep close first stop cursor.rest) (StopsBefore close) := by
  refine agrees_readArrayIndexer_start hin rfl hcalls ?_ ?_ ?_
  · intro hd
    simp only [readStep, hd]
  · intro c rest hd hc
    simp only [readStep, hd, if_neg (hclose.endsIndex.ne_of_isIndexChar hc)]
  · intro calls after last c rest hd hafter hc hspan hlast hcalls
    obtain ⟨calls, rfl⟩ := Nat.exists_eq_add_one_of_ne_zero (Nat.ne_zero_of_lt hcalls)
    simp only [readStep, hd]
    rw [Traced.readAtDelimiter]
    by_cases hcloser : c = close
    · subst hcloser
      rw [if_pos rfl, if_pos rfl, hin.rest_eq]
      refine (agrees_storeBound hspan hlast le_rfl rfl).bind fun step bounds ending _ _ hread => ?_
      obtain ⟨rfl, hplace⟩ := hread
      exact agrees_finishSlice first stop step ((congrArg Place.rest hplace).trans hafter)
    · rw [if_neg hcloser, if_neg hcloser]
      simp only [Nat.zero_lt_succ, or_true, true_or, if_true, ite_self]
      exact Agrees.fail hafter

/-- The end of a slice, behind which there may be a step. -/
theorem agrees_readArrayIndexer_stop (first : Option Int64) :
    Agrees text
      (Traced.readArrayIndexer calls close ⟨cursor.position, none, 1, #v[first, none, none]⟩ none)
      cursor (readStop close first cursor.rest) (StopsBefore close) := by
  refine agrees_readArrayIndexer_start hin rfl hcalls ?_ ?_ ?_
  · intro hd
    simp only [readStop, hd]
  · intro c rest hd hc
    simp only [readStop, hd, if_neg (hclose.endsIndex.ne_of_isIndexChar hc),
      if_neg (endsIndex_colon.ne_of_isIndexChar hc)]
  · intro calls after last c rest hd hafter hc hspan hlast hcalls
    obtain ⟨calls, rfl⟩ := Nat.exists_eq_add_one_of_ne_zero (Nat.ne_zero_of_lt hcalls)
    simp only [readStop, hd]
    rw [Traced.readAtDelimiter]
    by_cases hcloser : c = close
    · subst hcloser
      rw [if_pos rfl, if_pos rfl, hin.rest_eq]
      refine (agrees_storeBound hspan hlast (Nat.le_succ 1) rfl).bindMap
        fun stop bounds ending _ hread => ?_
      obtain ⟨rfl, hplace⟩ := hread
      exact agrees_finishSlice first stop none ((congrArg Place.rest hplace).trans hafter)
    rw [if_neg hcloser, if_neg hcloser]
    by_cases hcolon : c = ':'
    · subst hcolon
      simp only [Option.isSome_none, Bool.false_eq_true, false_or, if_true,
        show (':' : Char) ≠ ',' by decide, show (':' : Char) ≠ '*' by decide, if_false,
        show (1 : Nat) ≠ 2 by decide]
      rw [hin.rest_eq]
      refine (agrees_storeBound hspan hlast (Nat.le_succ 1) rfl).bind
        fun stop bounds stored _ _ hread => ?_
      obtain ⟨rfl, hplace⟩ := hread
      refine agrees_passDelimiter ((congrArg Place.rest hplace).trans hafter)
        fun next hnext hrest => ?_
      rw [← hrest]
      apply agrees_readArrayIndexer_step hclose hnext
      have hskip := length_skipSpaces_le rest
      rw [hrest]
      omega
    · rw [if_neg hcolon]
      simp only [Nat.zero_lt_succ, or_true, true_or, if_true, if_neg hcolon, ite_self]
      exact Agrees.fail hafter

end

/-- Indexes of a list, behind those that have been read. -/
theorem agrees_readArrayIndexer_indexes (hclose : IsCloser close) (hin : cursor.InText text)
    (hcalls : 2 * cursor.rest.length < calls) (bounds : Vector (Option Int64) 3)
    (indexes : List Int64) :
    Agrees text
      (Traced.readArrayIndexer calls close ⟨cursor.position, some indexes, 0, bounds⟩ none) cursor
      (readIndexes close cursor.rest)
      fun found selector after =>
        selector = .elements (indexes ++ found.1) ∧ after.rest = close :: found.2 := by
  induction hlength : cursor.rest.length using Nat.strong_induction_on
    generalizing cursor calls indexes with
  | _ length ih =>
  refine agrees_readArrayIndexer_start hin rfl (hlength ▸ hcalls) ?_ ?_ ?_
  · intro hd
    rw [readIndexes]
    split
    · rfl
    · next h => exact absurd (hd.symm.trans h) (List.cons_ne_nil _ _).symm
  · intro c rest hd hc
    rw [readIndexes_of_afterIndexWord hd, if_neg (hclose.endsIndex.ne_of_isIndexChar hc),
      if_neg (endsIndex_comma.ne_of_isIndexChar hc)]
  · intro calls after last c rest hd hafter hc hspan hlast hcalls
    obtain ⟨calls, rfl⟩ := Nat.exists_eq_add_one_of_ne_zero (Nat.ne_zero_of_lt hcalls)
    rw [readIndexes_of_afterIndexWord hd, Traced.readAtDelimiter]
    by_cases hcloser : c = close
    · subst hcloser
      rw [if_pos rfl, if_pos rfl, hin.rest_eq]
      refine (agrees_readIndex hspan hlast).bindMap fun index value ending _ hread => ?_
      obtain ⟨rfl, hplace⟩ := hread
      exact Agrees.pure ⟨rfl, (congrArg Place.rest hplace).trans hafter⟩
    rw [if_neg hcloser, if_neg hcloser]
    by_cases hcomma : c = ','
    · subst hcomma
      rw [if_pos rfl, if_pos rfl, if_neg (Nat.lt_irrefl 0), hin.rest_eq]
      refine (agrees_readIndex hspan hlast).bind fun index value ending _ _ hread => ?_
      obtain ⟨rfl, hplace⟩ := hread
      refine agrees_passDelimiter ((congrArg Place.rest hplace).trans hafter)
        fun next hnext hrest => ?_
      have hshorter := length_lt_of_afterIndexWord hd
      have hskip := length_skipSpaces_le rest
      rw [← hrest] at hskip ⊢
      refine Agrees.map (ih _ (by omega) hnext (by omega) _ rfl) _ ?_
      rintro found selector stopped - ⟨rfl, hstopped⟩
      exact ⟨congrArg Selector.elements (List.append_assoc _ _ _), hstopped⟩
    · rw [if_neg hcomma, if_neg hcomma]
      simp only [Option.isSome_some, true_or, if_true, ite_self]
      exact Agrees.fail hafter

/-- An array indexer, of which nothing has been seen. -/
theorem agrees_readArrayIndexer (hclose : IsCloser close) (hin : cursor.InText text)
    (hcalls : 2 * cursor.rest.length < calls) :
    Agrees text (Traced.readArrayIndexer calls close (.initial cursor.position) none) cursor
      (readArrayIndexer close cursor.rest) (StopsBefore close) := by
  rw [ArrayProgress.initial]
  refine agrees_readArrayIndexer_start hin rfl hcalls ?_ ?_ ?_
  · intro hd
    simp only [readArrayIndexer, hd]
  · intro c rest hd hc
    simp only [readArrayIndexer, hd, if_neg (hclose.endsIndex.ne_of_isIndexChar hc),
      if_neg (endsIndex_comma.ne_of_isIndexChar hc), if_neg (endsIndex_colon.ne_of_isIndexChar hc),
      endsIndex_wildcard.ne_of_isIndexChar hc, false_and, if_false]
  · intro calls after last c rest hd hafter hc hspan hlast hcalls
    obtain ⟨calls, rfl⟩ := Nat.exists_eq_add_one_of_ne_zero (Nat.ne_zero_of_lt hcalls)
    have hskip := length_skipSpaces_le rest
    simp only [readArrayIndexer, hd]
    rw [Traced.readAtDelimiter]
    by_cases hcloser : c = close
    · subst hcloser
      rw [if_pos rfl, if_pos rfl, hin.rest_eq]
      refine (agrees_readIndex hspan hlast).bindMap fun index value ending _ hread => ?_
      obtain ⟨rfl, hplace⟩ := hread
      exact Agrees.pure ⟨rfl, (congrArg Place.rest hplace).trans hafter⟩
    rw [if_neg hcloser, if_neg hcloser]
    by_cases hcomma : c = ','
    · subst hcomma
      rw [if_pos rfl, if_pos rfl, if_neg (Nat.lt_irrefl 0), hin.rest_eq]
      refine (agrees_readIndex hspan hlast).bind fun index value ending _ _ hread => ?_
      obtain ⟨rfl, hplace⟩ := hread
      refine agrees_passDelimiter ((congrArg Place.rest hplace).trans hafter)
        fun next hnext hrest => ?_
      rw [← hrest] at hskip ⊢
      refine Agrees.map (agrees_readArrayIndexer_indexes hclose hnext (by omega) _ _) _ ?_
      rintro found selector stopped - ⟨rfl, hstopped⟩
      exact ⟨rfl, hstopped⟩
    rw [if_neg hcomma, if_neg hcomma]
    by_cases hcolon : c = ':'
    · subst hcolon
      rw [if_pos rfl, if_neg (by decide), if_pos rfl, if_neg (by simp), hin.rest_eq]
      refine (agrees_storeBound hspan hlast (Nat.zero_le 2) rfl).bind
        fun first bounds stored _ _ hread => ?_
      obtain ⟨rfl, hplace⟩ := hread
      refine agrees_passDelimiter ((congrArg Place.rest hplace).trans hafter)
        fun next hnext hrest => ?_
      rw [← hrest] at hskip ⊢
      exact agrees_readArrayIndexer_stop hclose hnext (by omega) first
    rw [if_neg hcolon, if_neg hcolon]
    by_cases hwildcard : c = '*'
    · subst hwildcard
      rw [hin.rest_eq, if_pos rfl]
      by_cases hempty : last ≤ cursor.position
      · rw [if_neg (by simp [hempty]), if_pos ⟨rfl, hspan.isEmpty_iff.mpr hempty⟩]
        refine Agrees.advance hafter fun passed _ hpassed _ => ?_
        rw [← hpassed]
        exact agrees_stopBehindSpaces close _
      · rw [if_pos (by simpa using hempty), if_neg fun h => hempty (hspan.isEmpty_iff.mp h.2)]
        exact Agrees.fail hafter
    · rw [if_neg hwildcard, if_neg fun h => hwildcard h.1]
      exact Agrees.fail hafter

end JsonSelect
