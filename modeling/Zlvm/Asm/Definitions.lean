import Mathlib.Data.List.Nodup
import Zlvm.Asm.Marks

/-!
# The definitions of a token list

What the scan of `capture_macros` finds, without its table.  A part of the list that the scan has
passed is passed in the same way whatever comes behind it.

* `EndsLine`, `HasNewline` — lists of whole lines, and how `line_end` cuts them.
* `DistinctNames`, `captureAll_distinctNames` — the macros of a table have distinct names.
* `captureMacro_parameters_nodup` — and so do the parameters of each.
* `Scans` — the scan from one position to a later one, and the macros on the way.
* `captureAll_eq_ok` — the table is made of them.
* **`Scans.append_right`** — what comes behind does not matter.
-/

namespace Zlvm

open Loop

variable {macros captured : List Macro} {m m' : Macro} {name : CString} {definition token : Token}
  {l l' after : List Token}

/-! ## Lines -/

/-- Some line ends within the list. -/
def HasNewline (l : List Token) : Prop := ∃ t ∈ l, t.type = .newline

/-- The list is empty or its last token is a line break. -/
def EndsLine (l : List Token) : Prop := ∀ t ∈ l.getLast?, t.type = .newline

section Lines

theorem endsLine_nil : EndsLine [] := fun _ h => nomatch h

theorem EndsLine.hasNewline (h : EndsLine l) (hl : l ≠ []) : HasNewline l :=
  ⟨l.getLast hl, List.getLast_mem hl, h _ (List.getLast?_eq_some_getLast hl)⟩

theorem EndsLine.suffix (h : EndsLine l) (hl : l' <:+ l) : EndsLine l' := by
  obtain ⟨before, rfl⟩ := hl
  intro t ht
  exact h t (List.mem_getLast?_append_of_mem_getLast? ht)

/-- A whole line is not ended by another token. -/
theorem EndsLine.tail_hasNewline (h : EndsLine (token :: l)) (htype : token.type ≠ .newline) :
    HasNewline l := by
  refine (h.suffix (List.suffix_cons _ _)).hasNewline ?_
  rintro rfl
  exact htype (h token rfl)

theorem dropWhile_ne_nil_of_exists {p : Token → Bool} (h : ∃ t ∈ l, p t = false) :
    l.dropWhile p ≠ [] := by
  obtain ⟨t, ht, hp⟩ := h
  intro hnil
  rw [List.dropWhile_eq_nil_iff] at hnil
  exact absurd (hnil t ht) (by simp [hp])

theorem dropWhile_append_of_exists {p : Token → Bool} (h : ∃ t ∈ l, p t = false) (l' : List Token) :
    (l ++ l').dropWhile p = l.dropWhile p ++ l' := by
  rw [List.dropWhile_append, if_neg (by simpa using dropWhile_ne_nil_of_exists h)]

theorem takeWhile_append_of_exists {p : Token → Bool} (h : ∃ t ∈ l, p t = false) (l' : List Token) :
    (l ++ l').takeWhile p = l.takeWhile p := by
  obtain ⟨t, ht, hp⟩ := h
  rw [List.takeWhile_append, if_neg]
  intro hlength
  have hall : l.takeWhile p = l := (List.takeWhile_prefix p).eq_of_length hlength
  exact absurd (List.takeWhile_eq_self_iff.mp hall t ht) (by simp [hp])

theorem HasNewline.exists (h : HasNewline l) :
    ∃ t ∈ l, ((fun t : Token => t.type != .newline) t) = false := by
  obtain ⟨t, ht, htype⟩ := h
  exact ⟨t, ht, by simp [htype]⟩

theorem lineTokens_append (h : HasNewline l) (l' : List Token) :
    lineTokens (l ++ l') = lineTokens l :=
  takeWhile_append_of_exists h.exists l'

theorem nextLine_append (h : HasNewline l) (l' : List Token) :
    nextLine (l ++ l') = nextLine l ++ l' := by
  have hpos := List.length_pos_of_ne_nil (dropWhile_ne_nil_of_exists h.exists)
  rw [nextLine, nextLine, dropWhile_append_of_exists h.exists, List.drop_append_of_le_length hpos]

theorem nextLine_append_of_not (h : ¬HasNewline l) (l' : List Token) :
    nextLine (l ++ l') = nextLine l' := by
  rw [nextLine, nextLine, List.dropWhile_append_of_pos]
  intro t ht
  rw [bne_iff_ne]
  exact fun htype => h ⟨t, ht, htype⟩

theorem nextLine_cons_of_newline (h : token.type = .newline) (l : List Token) :
    nextLine (token :: l) = l := by
  rw [nextLine, List.dropWhile_cons_of_neg (by simp [h])]
  rfl

theorem lineTokens_cons_of_ne (h : token.type ≠ .newline) (l : List Token) :
    lineTokens (token :: l) = token :: lineTokens l :=
  List.takeWhile_cons_of_pos (by simpa using h)

theorem nextLine_suffix (l : List Token) : nextLine l <:+ l :=
  (List.drop_suffix 1 _).trans (List.dropWhile_suffix _)

theorem nextLine_length_lt (h : l ≠ []) : (nextLine l).length < l.length := by
  have hdrop := (List.dropWhile_suffix (·.type != .newline) (l := l)).length_le
  have hpos := List.length_pos_of_ne_nil h
  rw [nextLine, List.length_drop]
  omega

end Lines

/-! ## Names -/

/-- The macros of a table have distinct names. -/
def DistinctNames (macros : List Macro) : Prop := (macros.map (·.name.value)).Nodup

section Names

theorem distinctNames_nil : DistinctNames [] := List.nodup_nil

theorem findMacro_eq_none :
    findMacro macros name = none ↔ name ∉ macros.map (·.name.value) := by
  simp [findMacro]

theorem distinctNames_cons :
    DistinctNames (m :: macros) ↔ findMacro macros m.name.value = none ∧ DistinctNames macros := by
  rw [findMacro_eq_none]
  exact List.nodup_cons

theorem mem_of_findMacro (h : findMacro macros name = some m) : m ∈ macros :=
  List.mem_of_find?_eq_some h

theorem name_of_findMacro (h : findMacro macros name = some m) : m.name.value = name := by
  simpa using List.find?_some h

/-- A macro is told from another by its name. -/
theorem DistinctNames.eq (h : DistinctNames macros) (hm : m ∈ macros) (hm' : m' ∈ macros)
    (hname : m.name.value = m'.name.value) : m = m' :=
  List.inj_on_of_nodup_map h hm hm' hname

/-- A definition is captured whatever the table is, unless its name is in it. -/
theorem captureMacro_eq_ok_iff : captureMacro macros definition l = .ok (m, after) ↔
    captureMacro [] definition l = .ok (m, after) ∧ findMacro macros m.name.value = none := by
  rw [captureMacro_eq_ok, captureMacro_eq_ok]
  constructor
  · rintro ⟨arguments, hline, hid, hfresh, hrest⟩
    exact ⟨⟨arguments, hline, hid, rfl, hrest⟩, hfresh⟩
  · rintro ⟨⟨arguments, hline, hid, -, hrest⟩, hfresh⟩
    exact ⟨arguments, hline, hid, hfresh, hrest⟩

end Names

/-! ## Parameters -/

/-- A parameter that is added has a name of its own. -/
theorem readParameters_nodup {arguments parameters : List Token}
    (h : readParameters arguments = .ok parameters) : (parameters.map (·.value)).Nodup := by
  refine foldlM_induction (fun _ parameters => (parameters.map (·.value)).Nodup) h List.nodup_nil ?_
  intro _ parameter _ parameters parameters' _ hnodup hadd
  simp only [addParameter, bind_eq_ok, require_eq_ok] at hadd
  obtain ⟨-, -, -, hfresh, hadd⟩ := hadd
  rw [← Except.ok.inj hadd, List.map_append]
  refine hnodup.append (List.nodup_singleton _) ?_
  intro name hname hlast
  obtain ⟨other, hother, rfl⟩ := List.mem_map.mp hname
  have hvalue : other.value = parameter.value := by simpa using hlast
  exact hfresh (List.any_eq_true.mpr ⟨other, hother, by rw [hvalue, beq_self_eq_true]⟩)

/-- **The parameters of a captured macro are distinct.** -/
theorem captureMacro_parameters_nodup (h : captureMacro macros definition l = .ok (m, after)) :
    (m.parameters.map (·.value)).Nodup := by
  obtain ⟨arguments, -, -, -, hparameters, -⟩ := captureMacro_eq_ok.mp h
  exact readParameters_nodup hparameters

/-! ## The scan -/

/-- The loop of `capture_macros` gets from one position to another and captures some macros on the
way, the first in the list first. -/
inductive Scans : List Token → List Macro → List Token → Prop
  | refl (l : List Token) : Scans l [] l
  | definition {token : Token} {rest after l' : List Token} {m : Macro} {found : List Macro}
      (definition : isDirective token "macro" = true)
      (captured : captureMacro [] token rest = .ok (m, after)) (later : Scans after found l') :
      Scans (token :: rest) (m :: found) l'
  | other {token : Token} {rest l' : List Token} {found : List Macro}
      (ordinary : isDirective token "macro" = false)
      (inside : isDirective token "endmacro" = false) (later : Scans rest found l') :
      Scans (token :: rest) found l'

section Scan

variable {found found' : List Macro}

theorem Scans.length_le (h : Scans l found l') : l'.length ≤ l.length := by
  induction h with
  | refl _ => exact Nat.le_refl _
  | definition _ captured _ ih =>
      have hle := captureMacro_length_le captured
      rw [List.length_cons]
      omega
  | other _ _ _ ih =>
      rw [List.length_cons]
      omega

theorem Scans.trans {l'' : List Token} (h : Scans l found l') (h' : Scans l' found' l'') :
    Scans l (found ++ found') l'' := by
  induction h with
  | refl _ => exact h'
  | definition definition captured _ ih => exact .definition definition captured (ih h')
  | other ordinary inside _ ih => exact .other ordinary inside (ih h')

/-- **There is one scan**: of two positions, the earlier comes first. -/
theorem Scans.split {l₁ l₂ : List Token} (h : Scans l found l₁) (h' : Scans l found' l₂)
    (hle : l₂.length ≤ l₁.length) : ∃ later, found' = found ++ later ∧ Scans l₁ later l₂ := by
  induction h generalizing found' with
  | refl _ => exact ⟨found', rfl, h'⟩
  | definition definition captured later ih =>
      have hshort := Nat.le_trans later.length_le (captureMacro_length_le captured)
      cases h' with
      | refl =>
          rw [List.length_cons] at hle
          omega
      | definition _ captured' later' =>
          obtain ⟨rfl, rfl⟩ := Prod.mk.inj (Except.ok.inj (captured.symm.trans captured'))
          obtain ⟨found, rfl, hscan⟩ := ih later' hle
          exact ⟨found, rfl, hscan⟩
      | other ordinary _ _ =>
          rw [definition] at ordinary
          cases ordinary
  | other ordinary _ later ih =>
      have hshort := later.length_le
      cases h' with
      | refl =>
          rw [List.length_cons] at hle
          omega
      | definition definition _ _ =>
          rw [definition] at ordinary
          cases ordinary
      | other _ _ later' => exact ih later' hle

/-- The table of a scan. -/
theorem captureAll_scans : ∀ (n : ℕ) {macros : List Macro} {l : List Token}, l.length ≤ n →
    DistinctNames macros → captureAll macros l = .ok captured →
      ∃ found, Scans l found [] ∧ captured = found.reverse ++ macros ∧ DistinctNames captured
  | _, macros, [], _, hnames, h => by
      obtain rfl := Except.ok.inj h
      exact ⟨[], .refl _, rfl, hnames⟩
  | n + 1, macros, token :: rest, hlength, hnames, h => by
      rw [List.length_cons, Nat.add_le_add_iff_right] at hlength
      cases hdefinition : isDirective token "macro" with
      | true =>
          rw [captureAll_definition hdefinition, bind_eq_ok] at h
          obtain ⟨⟨m, after⟩, hm, h⟩ := h
          have hle := captureMacro_length_le hm
          obtain ⟨hm, hfresh⟩ := captureMacro_eq_ok_iff.mp hm
          obtain ⟨found, hscan, rfl, hcaptured⟩ := captureAll_scans n (Nat.le_trans hle hlength)
            (distinctNames_cons.mpr ⟨hfresh, hnames⟩) h
          exact ⟨m :: found, .definition hdefinition hm hscan, by simp, hcaptured⟩
      | false =>
          cases hending : isDirective token "endmacro" with
          | true =>
              rw [captureAll_ending hdefinition hending] at h
              cases h
          | false =>
              rw [captureAll_other hdefinition hending] at h
              obtain ⟨found, hscan, hcaptured⟩ := captureAll_scans n hlength hnames h
              exact ⟨found, .other hdefinition hending hscan, hcaptured⟩

theorem Scans.captureAll_eq (h : Scans l found []) : ∀ {macros : List Macro},
    DistinctNames (found.reverse ++ macros) →
      captureAll macros l = .ok (found.reverse ++ macros) := by
  generalize hend : ([] : List Token) = l' at h
  induction h with
  | refl _ =>
      intro macros _
      exact hend ▸ rfl
  | @definition token rest after _ m found definition captured _ ih =>
      intro macros hnames
      rw [List.reverse_cons, List.append_assoc, List.singleton_append] at hnames ⊢
      have hcons : DistinctNames (m :: macros) := by
        rw [DistinctNames, List.map_append] at hnames
        exact List.Nodup.of_append_right hnames
      obtain ⟨hfresh, -⟩ := distinctNames_cons.mp hcons
      rw [captureAll_definition definition, captureMacro_eq_ok_iff.mpr ⟨captured, hfresh⟩, ok_bind]
      exact ih hend hnames
  | other ordinary inside _ ih =>
      intro macros hnames
      rw [captureAll_other ordinary inside]
      exact ih hend hnames

/-- **The table of a token list** is made of the macros that the scan captures. -/
theorem captureAll_eq_ok : captureAll [] l = .ok captured ↔
    ∃ found, Scans l found [] ∧ captured = found.reverse ∧ DistinctNames captured := by
  constructor
  · intro h
    obtain ⟨found, hscan, hcaptured, hnames⟩ :=
      captureAll_scans _ (Nat.le_refl _) distinctNames_nil h
    exact ⟨found, hscan, hcaptured.trans (List.append_nil _), hnames⟩
  · rintro ⟨found, hscan, rfl, hnames⟩
    have h := @Scans.captureAll_eq l found hscan [] (by rwa [List.append_nil])
    rwa [List.append_nil] at h

/-! ## What comes behind -/

/-- A directive is no line break. -/
theorem newline_ne_of_isDirective {name : String} (h : isDirective token name = true) :
    token.type ≠ .newline := by
  rw [type_of_isDirective h]
  decide

/-- The directive at which a definition ends, and what is behind it. -/
theorem isDirective_of_dropWhile {ending : Token} {rest : List Token}
    (h : l.dropWhile (!isDirective · "endmacro") = ending :: rest) :
    isDirective ending "endmacro" = true := by
  have hhead := List.head?_dropWhile_not (!isDirective · "endmacro") l
  rw [h] at hhead
  simpa using hhead

/-- A step from a token that stands before `l'` leaves the list before `l'`. -/
theorem exists_cons_of_append {rest : List Token} (h : l ++ l' = token :: rest)
    (hle : l'.length ≤ rest.length) : ∃ tail, l = token :: tail ∧ rest = tail ++ l' := by
  cases l with
  | nil =>
      obtain rfl : l' = token :: rest := h
      rw [List.length_cons] at hle
      omega
  | cons token' tail =>
      rw [List.cons_append] at h
      obtain ⟨rfl, rfl⟩ := List.cons.inj h
      exact ⟨tail, rfl, rfl⟩

/-- **A definition** that ends before `l'` is captured from what stands before `l'`. -/
theorem captureMacro_append (h : captureMacro macros definition (l ++ l') = .ok (m, after))
    (hle : l'.length ≤ after.length) (hend : l' = [] → EndsLine l) :
    ∃ after', after = after' ++ l' ∧ after' <:+ l ∧
      ∀ l'', captureMacro macros definition (l ++ l'') = .ok (m, after' ++ l'') := by
  obtain ⟨arguments, hline, hid, hfresh, hparameters, hbody, hnested, ending, rest, hdrop,
    hcomments, rfl⟩ := captureMacro_eq_ok.mp h
  have hending := isDirective_of_dropWhile hdrop
  -- the directive that ends the definition stands before `l'`, else too little is left
  have hleft : ¬ending :: rest <:+ l' := fun hsuffix => by
    have hlt := nextLine_length_lt (List.cons_ne_nil ending rest)
    have hlength := hsuffix.length_le
    omega
  have hnewline : HasNewline l := by
    by_contra hnot
    rw [nextLine_append_of_not hnot] at hdrop
    exact hleft (hdrop ▸ (List.dropWhile_suffix _).trans (nextLine_suffix _))
  rw [nextLine_append hnewline] at hbody hdrop
  have hinside : ∃ t ∈ nextLine l, (!isDirective t "endmacro") = false := by
    by_contra hnot
    push Not at hnot
    rw [List.dropWhile_append_of_pos fun t ht => by simpa using hnot t ht] at hdrop
    exact hleft (hdrop ▸ List.dropWhile_suffix _)
  rw [dropWhile_append_of_exists hinside] at hdrop
  rw [takeWhile_append_of_exists hinside] at hbody
  obtain ⟨rest', hdrop', rfl⟩ : ∃ rest', (nextLine l).dropWhile (!isDirective · "endmacro")
      = ending :: rest' ∧ rest = rest' ++ l' := by
    cases hrest : (nextLine l).dropWhile (!isDirective · "endmacro") with
    | nil =>
        rw [hrest, List.nil_append] at hdrop
        exact absurd ⟨[], hdrop.symm⟩ hleft
    | cons ending' rest' =>
        rw [hrest] at hdrop
        obtain ⟨rfl, rfl⟩ := List.cons.inj hdrop
        exact ⟨rest', rfl, rfl⟩
  have hsuffix : ending :: rest' <:+ l :=
    hdrop' ▸ (List.dropWhile_suffix _).trans (nextLine_suffix _)
  have hbreak : HasNewline rest' := by
    by_contra hnot
    rw [nextLine_cons_of_ne (newline_ne_of_isDirective hending), nextLine_append_of_not hnot] at hle
    by_cases hnil : l' = []
    · exact hnot (((hend hnil).suffix hsuffix).tail_hasNewline (newline_ne_of_isDirective hending))
    · exact absurd (nextLine_length_lt hnil) (by omega)
  have hcons : ∀ l'', nextLine (ending :: (rest' ++ l'')) = nextLine (ending :: rest') ++ l'' :=
    fun l'' => by
      rw [nextLine_cons_of_ne (newline_ne_of_isDirective hending),
        nextLine_cons_of_ne (newline_ne_of_isDirective hending), nextLine_append hbreak]
  rw [lineTokens_append hnewline] at hline
  rw [lineTokens_append hbreak] at hcomments
  refine ⟨nextLine (ending :: rest'), hcons l', (nextLine_suffix _).trans hsuffix, fun l'' => ?_⟩
  refine captureMacro_eq_ok.mpr ⟨arguments, ?_, hid, hfresh, hparameters, ?_, hnested, ending,
    rest' ++ l'', ?_, ?_, (hcons l'').symm⟩
  · rw [lineTokens_append hnewline, hline]
  · rw [nextLine_append hnewline, takeWhile_append_of_exists hinside, hbody]
  · rw [nextLine_append hnewline, dropWhile_append_of_exists hinside, hdrop']
    rfl
  · rw [lineTokens_append hbreak, hcomments]

/-- **What comes behind does not matter** to the scan of the tokens before it. -/
theorem Scans.append_right (h : Scans (l ++ l') found l') (hend : l' = [] → EndsLine l)
    (l'' : List Token) : Scans (l ++ l'') found l'' := by
  generalize hsplit : l ++ l' = whole at h
  induction h generalizing l with
  | refl _ =>
      obtain rfl : l = [] := by simpa using hsplit
      exact .refl l''
  | @definition token rest after l' m found definition captured later ih =>
      have hle := later.length_le
      obtain ⟨tail, rfl, rfl⟩ :=
        exists_cons_of_append hsplit (Nat.le_trans hle (captureMacro_length_le captured))
      have hend' : l' = [] → EndsLine tail := fun hnil => (hend hnil).suffix (List.suffix_cons _ _)
      obtain ⟨after', rfl, hsuffix, hcapture⟩ := captureMacro_append captured hle hend'
      exact .definition definition (hcapture l'')
        (ih (fun hnil => (hend' hnil).suffix hsuffix) rfl)
  | @other token rest l' found ordinary inside later ih =>
      obtain ⟨tail, rfl, rfl⟩ := exists_cons_of_append hsplit later.length_le
      exact .other ordinary inside
        (ih (fun hnil => (hend hnil).suffix (List.suffix_cons _ _)) rfl)

end Scan

/-- A token at the start of a source. -/
def plainToken (type : TokenType) (value : String) : Token where
  type
  value := CString.lit value
  pos := 0
  line := 1
  col := 1
  sourceSize := value.length

end Zlvm
