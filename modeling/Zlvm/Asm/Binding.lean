import Zlvm.Asm.Concat
import Zlvm.Asm.Definitions
import Zlvm.Asm.NamedArguments
import Zlvm.Lib.Slots

/-!
# How the arguments of a macro are bound

`read_arguments` fills one array from positional and named arguments.  Each argument is an entry for
a slot of that array, so the array is full exactly if the entries take every slot once.

* `namedArgumentValue_eq_ok` — the second lexer finds one token, and it is placed at the invocation.
* `NamedEntry` — the entry of a named argument; `foldlM_named` and `foldlM_positional` are the loop
  over the arguments of either kind.
* `names_perm_iff` — names of parameters and indices of slots; `substitute_of_getElem?` — a parameter
  is replaced by the value in its slot.
* `MatchesParameters`, `ArgumentsBound` — when the arguments are accepted, and what they bind.
* **`argumentsBound`** — this holds of every macro with distinct parameters.
-/

namespace Zlvm

open Loop Slots

/-! ## Named arguments -/

/-- The argument is a named one: an identifier with an equals sign. -/
def IsNamed (argument : Token) : Prop :=
  argument.type = .id ∧ equalsSign ∈ argument.value.bytes

instance : DecidablePred IsNamed := fun argument =>
  inferInstanceAs (Decidable (argument.type = .id ∧ equalsSign ∈ argument.value.bytes))

/-- The characters before the first equals sign. -/
def argumentName (argument : Token) : CString :=
  argument.value.take (argument.value.bytes.idxOf equalsSign)

/-- The characters behind the first equals sign. -/
def argumentText (argument : Token) : CString :=
  argument.value.drop (argument.value.bytes.idxOf equalsSign + 1)

theorem argumentName_eq_empty {argument : Token} (h : IsNamed argument) :
    argumentName argument = CString.empty ↔ argument.value.bytes.idxOf equalsSign = 0 := by
  have hne : argument.value.bytes ≠ [] := List.ne_nil_of_mem h.2
  rw [argumentName, CString.ext_iff, CString.bytes_empty]
  simp [CString.take, hne]

/-- The text of a value that is one token. -/
theorem lexSource_ne_empty {text : CString} {token : Token} (h : lexSource text = .ok [token]) :
    text ≠ CString.empty := by
  rintro rfl
  have hnil : lexSource CString.empty = .ok [] := lexRest_of_nil rfl
  rw [hnil] at h
  cases h

/-- **The value of a named argument** is the only token of its text, placed at the invocation. -/
theorem namedArgumentValue_eq_ok {text : CString} {invocation token : Token} :
    namedArgumentValue text invocation = .ok token ↔
      ∃ own, lexSource text = .ok [own] ∧ token = cloneToken own (some invocation) := by
  have hlexer := lexerReadToken_rebase invocation (lexerInit_at text)
  have hfirst := lexerReadToken_at (lexerInit_at text)
  show (lexerReadToken ((lexerInit text).rebase invocation) >>= _) = _ ↔ _
  rw [hlexer, lexSource_eq, lexRest_eq]
  cases hread : lexerReadToken (lexerInit text) with
  | error failure =>
      constructor
      · intro h
        cases h
      · rintro ⟨own, h, -⟩
        cases h
  | ok read =>
      cases read with
      | none =>
          constructor
          · intro h
            cases h
          · rintro ⟨own, h, -⟩
            cases h
      | some read =>
          obtain ⟨own, state⟩ := read
          have hstate := (hfirst.of_eq_ok hread _ rfl).2
          show (lexerReadToken (state.rebase invocation) >>= _) = _ ↔ _
          rw [lexerReadToken_rebase invocation hstate, ok_bind]
          show _ ↔ ∃ own', (lexRest state >>= fun tokens => .ok (own :: tokens)) = .ok [own'] ∧ _
          rw [lexRest_eq]
          cases lexerReadToken state with
          | error failure =>
              constructor
              · intro h
                cases h
              · rintro ⟨own', h, -⟩
                cases h
          | ok read =>
              cases read with
              | none =>
                  constructor
                  · intro h
                    exact ⟨own, rfl, (Except.ok.inj h).symm⟩
                  · rintro ⟨own', h, rfl⟩
                    obtain rfl := (List.cons.inj (Except.ok.inj h)).1
                    rfl
              | some read =>
                  constructor
                  · intro h
                    cases h
                  · rintro ⟨own', h, -⟩
                    obtain ⟨tokens, htokens, h⟩ := bind_eq_ok.mp h
                    obtain ⟨later, last⟩ := read
                    rw [ok_bind] at htokens
                    obtain ⟨rest, -, htokens⟩ := bind_eq_ok.mp htokens
                    obtain rfl := Except.ok.inj htokens
                    cases (List.cons.inj (Except.ok.inj h)).2

/-! ## The loop over the arguments -/

/-- The slot and the value of a named argument. -/
structure NamedEntry (m : Macro) (invocation argument : Token) (entry : ℕ × Token) : Prop where
  named : IsNamed argument
  name : argumentName argument ≠ CString.empty
  index : entry.1 = namedIndex m argument
  value : ∃ own, lexSource (argumentText argument) = .ok [own] ∧
    entry.2 = cloneToken own (some invocation)

section Loop

variable {m : Macro} {invocation : Token} {state state' : ArgumentState}

theorem free_iff {arguments : List (Option Token)} {i n : ℕ} (h : arguments.length = n) :
    i < n ∧ (arguments.getD i none).isNone = true ↔ arguments[i]? = some none := by
  rw [List.getD_eq_getElem?_getD]
  by_cases hi : i < arguments.length
  · rw [List.getElem?_eq_getElem hi]
    simpa using fun _ => h ▸ hi
  · rw [List.getElem?_eq_none (by omega)]
    simp
    omega

/-- One named argument. -/
theorem readArgument_named {argument : Token} (h : IsNamed argument)
    (hlength : state.arguments.length = m.parameters.length) :
    readArgument m invocation state argument = .ok state' ↔
      ∃ entry, NamedEntry m invocation argument entry ∧ state.arguments[entry.1]? = some none ∧
        state' = { state with
          arguments := state.arguments.set entry.1 (some entry.2)
          hasNamedArgument := true } := by
  have hcond : argument.type = .id ∧ equalsSign ∈ argument.value.bytes := h
  rw [readArgument, if_pos hcond]
  simp only [bind_eq_ok, require_eq_ok]
  constructor
  · rintro ⟨-, ⟨hname, -⟩, -, hfree, token, htoken, hstate⟩
    obtain ⟨own, hlex, rfl⟩ := namedArgumentValue_eq_ok.mp htoken
    refine ⟨(namedIndex m argument, cloneToken own (some invocation)),
      ⟨h, fun hempty => hname ((argumentName_eq_empty h).mp hempty), rfl, own, hlex, rfl⟩,
      (free_iff hlength).mp hfree, (Except.ok.inj hstate).symm⟩
  · rintro ⟨⟨index, value⟩, ⟨-, hname, rfl, own, hlex, rfl⟩, hfree, rfl⟩
    exact ⟨(), ⟨fun hzero => hname ((argumentName_eq_empty h).mpr hzero), lexSource_ne_empty hlex⟩,
      (), (free_iff hlength).mpr hfree, _, namedArgumentValue_eq_ok.mpr ⟨own, hlex, rfl⟩, rfl⟩

/-- One positional argument. -/
theorem readArgument_positional {argument : Token} (h : ¬IsNamed argument) :
    readArgument m invocation state argument = .ok state' ↔
      state.hasNamedArgument = false ∧ state.positionalIndex < m.parameters.length ∧
        state' = { state with
          arguments := state.arguments.set state.positionalIndex (some argument)
          positionalIndex := state.positionalIndex + 1 } := by
  have hcond : ¬(argument.type = .id ∧ equalsSign ∈ argument.value.bytes) := h
  rw [readArgument, if_neg hcond]
  simp only [bind_eq_ok, require_eq_ok]
  constructor
  · rintro ⟨-, ⟨hnamed, hindex⟩, hstate⟩
    exact ⟨hnamed, hindex, (Except.ok.inj hstate).symm⟩
  · rintro ⟨hnamed, hindex, rfl⟩
    exact ⟨(), ⟨hnamed, hindex⟩, rfl⟩

/-- Behind a named argument there are only named ones. -/
theorem foldlM_only_named : ∀ {arguments : List Token} {state : ArgumentState},
    state.hasNamedArgument = true →
    arguments.foldlM (readArgument m invocation) state = .ok state' →
      state.arguments.length = m.parameters.length → ∀ argument ∈ arguments, IsNamed argument
  | [], _, _, _, _ => by simp
  | argument :: rest, state, hnamed, h, hlength => by
      obtain ⟨next, hnext, h⟩ := bind_eq_ok.mp h
      by_cases hargument : IsNamed argument
      · obtain ⟨entry, -, -, rfl⟩ := (readArgument_named hargument hlength).mp hnext
        intro other hother
        rcases List.mem_cons.mp hother with rfl | hother
        · exact hargument
        · exact foldlM_only_named rfl h (by rw [List.length_set, hlength]) other hother
      · have hpositional := ((readArgument_positional hargument).mp hnext).1
        rw [hnamed] at hpositional
        cases hpositional

/-- **Named arguments** fill the slots of their parameters. -/
theorem foldlM_named : ∀ {named : List Token} {state : ArgumentState},
    (∀ argument ∈ named, IsNamed argument) →
    state.arguments.length = m.parameters.length → ∀ filled,
      (∃ state', named.foldlM (readArgument m invocation) state = .ok state' ∧
          state'.arguments = filled) ↔
        ∃ entries, List.Forall₂ (NamedEntry m invocation) named entries ∧
          Fills state.arguments entries filled
  | [], state, _, _, filled => by
      constructor
      · rintro ⟨state', h, rfl⟩
        obtain rfl := Except.ok.inj h
        exact ⟨[], .nil, .nil _⟩
      · rintro ⟨entries, hentries, hfills⟩
        cases hentries
        cases hfills
        exact ⟨state, rfl, rfl⟩
  | argument :: named, state, hnamed, hlength, filled => by
      have hargument : IsNamed argument := hnamed argument List.mem_cons_self
      have ih := fun entry : ℕ × Token => @foldlM_named named
        { state with
          arguments := state.arguments.set entry.1 (some entry.2)
          hasNamedArgument := true }
        (fun other hother => hnamed other (List.mem_cons_of_mem _ hother))
        (by rw [List.length_set, hlength]) filled
      constructor
      · rintro ⟨state', h, hfilled⟩
        obtain ⟨next, hnext, h⟩ := bind_eq_ok.mp h
        obtain ⟨entry, hentry, hfree, rfl⟩ := (readArgument_named hargument hlength).mp hnext
        obtain ⟨entries, hentries, hfills⟩ := (ih entry).mp ⟨state', h, hfilled⟩
        exact ⟨entry :: entries, .cons hentry hentries, .cons hfree hfills⟩
      · rintro ⟨_, hentries, hfills⟩
        cases hentries with
        | cons hentry hentries =>
            cases hfills with
            | cons hfree hfills =>
                obtain ⟨state', h, hfilled⟩ := (ih _).mpr ⟨_, hentries, hfills⟩
                refine ⟨state', bind_eq_ok.mpr ⟨_, ?_, h⟩, hfilled⟩
                exact (readArgument_named hargument hlength).mpr ⟨_, hentry, hfree, rfl⟩

/-- What the loop carries behind some positional arguments. -/
def positionalState (m : Macro) (positional : List Token) : ArgumentState where
  arguments := positional.map some ++ List.replicate (m.parameters.length - positional.length) none
  positionalIndex := positional.length
  hasNamedArgument := false

theorem positionalState_length {positional : List Token}
    (h : positional.length ≤ m.parameters.length) :
    (positionalState m positional).arguments.length = m.parameters.length := by
  rw [positionalState, List.length_append, List.length_map, List.length_replicate]
  omega

/-- The free slots behind some positional arguments. -/
theorem positionalState_free {positional : List Token} {i : ℕ} :
    (positionalState m positional).arguments[i]? = some none
      ↔ i ∈ List.range' positional.length (m.parameters.length - positional.length) := by
  rw [positionalState, List.mem_range'_1]
  dsimp only
  by_cases hi : i < positional.length
  · rw [List.getElem?_append_left (by rwa [List.length_map]), List.getElem?_map,
      List.getElem?_eq_getElem hi]
    simp
    omega
  · rw [List.getElem?_append_right (by rw [List.length_map]; omega), List.length_map,
      List.getElem?_replicate]
    simp
    omega

theorem positionalState_snoc {positional : List Token} {argument : Token}
    (h : positional.length < m.parameters.length) :
    positionalState m (positional ++ [argument]) =
      { positionalState m positional with
        arguments := (positionalState m positional).arguments.set positional.length (some argument)
        positionalIndex := positional.length + 1 } := by
  have hroom : m.parameters.length - positional.length
      = m.parameters.length - (positional.length + 1) + 1 := by omega
  unfold positionalState
  rw [List.length_append, List.length_singleton, hroom, List.replicate_succ,
    List.set_append_right _ _ (by rw [List.length_map])]
  simp

/-- **Positional arguments** fill the slots from the front. -/
theorem foldlM_positional {positional : List Token}
    (h : ∀ argument ∈ positional, ¬IsNamed argument) :
    positional.foldlM (readArgument m invocation) (argumentInit m) = .ok state ↔
      positional.length ≤ m.parameters.length ∧ state = positionalState m positional := by
  induction positional using List.reverseRecOn generalizing state with
  | nil =>
      have hinit : positionalState m [] = argumentInit m := rfl
      rw [hinit]
      constructor
      · intro hfold
        exact ⟨Nat.zero_le _, (Except.ok.inj hfold).symm⟩
      · rintro ⟨-, rfl⟩
        rfl
  | append_singleton positional argument ih =>
      have hargument : ¬IsNamed argument := h argument (by simp)
      rw [List.foldlM_append, bind_eq_ok, List.length_append, List.length_singleton]
      simp only [ih fun other hother => h other (List.mem_append_left _ hother)]
      constructor
      · rintro ⟨_, ⟨hle, rfl⟩, hlast⟩
        obtain ⟨next, hread, hnext⟩ := bind_eq_ok.mp hlast
        obtain rfl := Except.ok.inj hnext
        obtain ⟨-, hlt, rfl⟩ := (readArgument_positional hargument).mp hread
        exact ⟨hlt, (positionalState_snoc hlt).symm⟩
      · rintro ⟨hle, rfl⟩
        refine ⟨_, ⟨by omega, rfl⟩, bind_eq_ok.mpr ⟨_, ?_, rfl⟩⟩
        exact (readArgument_positional hargument).mpr ⟨rfl, hle, positionalState_snoc hle⟩

end Loop

/-! ## Names and slots -/

section Parameters

variable {m : Macro}

theorem parameterIndex_of_getElem? (hdistinct : (m.parameters.map (·.value)).Nodup) {i : ℕ}
    {parameter : Token} (h : m.parameters[i]? = some parameter) :
    parameterIndex m parameter.value = i := by
  obtain ⟨hi, rfl⟩ := List.getElem?_eq_some_iff.mp h
  refine (List.findIdx_eq hi).mpr ⟨beq_self_eq_true _, fun j hj => ?_⟩
  rw [beq_eq_false_iff_ne]
  intro heq
  have hvalues : (m.parameters.map (·.value))[j]? = (m.parameters.map (·.value))[i]? := by
    rw [List.getElem?_map, List.getElem?_map, List.getElem?_eq_getElem (hj.trans hi),
      List.getElem?_eq_getElem hi]
    exact congrArg some heq
  have hjlength : j < (m.parameters.map (·.value)).length := by
    rw [List.length_map]
    exact hj.trans hi
  have hindex := (List.getElem?_inj hjlength hdistinct).mp hvalues
  omega

/-- A parameter is replaced by the value at its own index. -/
theorem substitute_of_getElem? (hdistinct : (m.parameters.map (·.value)).Nodup)
    {values : List Token} {i : ℕ} {parameter value token : Token}
    (hparameter : m.parameters[i]? = some parameter) (hvalue : values[i]? = some value)
    (hname : token.value = parameter.value)
    (hkind : token.type = .id ∨ token.type = .labelUse ∨ token.type = .labelInit)
    (invocation : Token) :
    (substitute m values invocation token).value = value.value ∧
      (substitute m values invocation token).type
        = if token.type = .labelInit then .labelInit else value.type := by
  have hindex : values[parameterIndex m token.value]? = some value := by
    rw [hname, parameterIndex_of_getElem? hdistinct hparameter, hvalue]
  rw [substitute_parameter hkind hindex]
  exact ⟨rfl, rfl⟩

/-- The name of the parameter at an index. -/
def parameterName (m : Macro) (i : ℕ) : CString :=
  (m.parameters.map (·.value)).getD i CString.empty

theorem parameterName_index {name : CString} (h : parameterIndex m name < m.parameters.length) :
    parameterName m (parameterIndex m name) = name := by
  have hfound := List.findIdx_getElem (p := fun parameter : Token => parameter.value == name)
    (w := h)
  rw [parameterName, List.getD_eq_getElem _ _ (by rwa [List.length_map]), List.getElem_map]
  exact eq_of_beq hfound

/-- The named arguments name the parameters from the `k`-th on if and only if they take the slots
from there on. -/
theorem names_perm_iff (hdistinct : (m.parameters.map (·.value)).Nodup) {named : List Token}
    {k : ℕ} :
    (named.map argumentName).Perm ((m.parameters.drop k).map (·.value)) ↔
      (named.map (namedIndex m)).Perm (List.range' k (m.parameters.length - k)) := by
  have hindices : ((m.parameters.drop k).map (·.value)).map (parameterIndex m)
      = List.range' k (m.parameters.length - k) := by
    refine List.ext_getElem (by simp) fun i h₁ h₂ => ?_
    rw [List.getElem_map, List.getElem_map, List.getElem_drop, List.getElem_range', Nat.one_mul]
    exact parameterIndex_of_getElem? hdistinct (List.getElem?_eq_getElem _)
  constructor
  · intro hperm
    have hmap := hperm.map (parameterIndex m)
    rw [hindices, List.map_map] at hmap
    exact hmap
  · intro hperm
    have hmap := hperm.map (parameterName m)
    have hnames : (named.map (namedIndex m)).map (parameterName m) = named.map argumentName := by
      rw [List.map_map]
      refine List.map_congr_left fun argument hargument => ?_
      have hmem := hperm.subset (List.mem_map_of_mem hargument)
      rw [List.mem_range'_1] at hmem
      exact parameterName_index (by show namedIndex m argument < _; omega)
    have hrange : (List.range' k (m.parameters.length - k)).map (parameterName m)
        = (m.parameters.drop k).map (·.value) := by
      refine List.ext_getElem (by simp) fun i h₁ h₂ => ?_
      have hi : k + i < (m.parameters.map (·.value)).length := by
        simp only [List.length_map, List.length_range'] at h₁ ⊢
        omega
      rw [List.getElem_map, List.getElem_map, List.getElem_drop, List.getElem_range', Nat.one_mul,
        parameterName, List.getD_eq_getElem _ _ hi, List.getElem_map]
    rwa [hnames, hrange] at hmap

end Parameters

/-! ## The binding -/

/-- Positional arguments followed by named ones, which name the remaining parameters once each. -/
structure MatchesParameters (m : Macro) (positional named : List Token) : Prop where
  count : positional.length ≤ m.parameters.length
  plain : ∀ argument ∈ positional, ¬IsNamed argument
  valued : ∀ argument ∈ named, IsNamed argument ∧ argumentName argument ≠ CString.empty ∧
    ∃ own, lexSource (argumentText argument) = .ok [own]
  names : (named.map argumentName).Perm ((m.parameters.drop positional.length).map (·.value))

/-- The arguments are accepted exactly if they match the parameters.  Then a parameter is bound to
the positional argument at its index or else, placed at the invocation, to the token that its named
argument spells. -/
structure ArgumentsBound (m : Macro) (tokens : List Token) (invocation : Token) : Prop where
  accepted : (∃ values, readArguments m tokens invocation = .ok values) ↔
    ∃ positional named, argumentTokens tokens = positional ++ named ∧
      MatchesParameters m positional named
  bound : ∀ values positional named, readArguments m tokens invocation = .ok values →
    argumentTokens tokens = positional ++ named → MatchesParameters m positional named →
      values.length = m.parameters.length ∧
      (∀ i < positional.length, values[i]? = positional[i]?) ∧
      ∀ i parameter, positional.length ≤ i → m.parameters[i]? = some parameter →
        ∃ argument ∈ named, argumentName argument = parameter.value ∧
          ∃ own, lexSource (argumentText argument) = .ok [own] ∧
            values[i]? = some (cloneToken own (some invocation))

section Binding

variable {m : Macro} {tokens positional named values : List Token} {invocation : Token}
  {entries : List (ℕ × Token)}

theorem map_fst_entries (h : List.Forall₂ (NamedEntry m invocation) named entries) :
    entries.map Prod.fst = named.map (namedIndex m) := by
  induction h with
  | nil => rfl
  | cons hentry _ ih => rw [List.map_cons, List.map_cons, hentry.index, ih]

theorem exists_entries : ∀ {named : List Token}, (∀ argument ∈ named, IsNamed argument ∧
    argumentName argument ≠ CString.empty ∧ ∃ own, lexSource (argumentText argument) = .ok [own]) →
      ∃ entries, List.Forall₂ (NamedEntry m invocation) named entries
  | [], _ => ⟨[], .nil⟩
  | argument :: named, h => by
      obtain ⟨hnamed, hname, own, hown⟩ := h argument List.mem_cons_self
      obtain ⟨entries, hentries⟩ := @exists_entries named
        fun other hother => h other (List.mem_cons_of_mem _ hother)
      exact ⟨(namedIndex m argument, cloneToken own (some invocation)) :: entries,
        .cons ⟨hnamed, hname, rfl, own, hown, rfl⟩ hentries⟩

theorem exists_entry_of_mem (h : List.Forall₂ (NamedEntry m invocation) named entries)
    {argument : Token} (hargument : argument ∈ named) :
    ∃ entry ∈ entries, NamedEntry m invocation argument entry := by
  induction h with
  | nil => cases hargument
  | cons hentry _ ih =>
      rcases List.mem_cons.mp hargument with rfl | hlater
      · exact ⟨_, List.mem_cons_self, hentry⟩
      · obtain ⟨entry, hmem, hentry⟩ := ih hlater
        exact ⟨entry, List.mem_cons_of_mem _ hmem, hentry⟩

/-- The arguments before the first named one. -/
theorem exists_split (arguments : List Token) : ∃ positional named,
    arguments = positional ++ named ∧ (∀ argument ∈ positional, ¬IsNamed argument) ∧
      ∀ argument, named.head? = some argument → IsNamed argument := by
  induction arguments with
  | nil => exact ⟨[], [], rfl, by simp, by simp⟩
  | cons argument arguments ih =>
      by_cases h : IsNamed argument
      · exact ⟨[], argument :: arguments, rfl, by simp, by simpa using h⟩
      · obtain ⟨positional, named, rfl, hplain, hhead⟩ := ih
        exact ⟨argument :: positional, named, rfl, by simpa using ⟨h, hplain⟩, hhead⟩

/-- The entries of named arguments fill the free slots if and only if their names are those of the
parameters behind the positional ones. -/
theorem exists_full_iff_names (hdistinct : (m.parameters.map (·.value)).Nodup)
    (hentries : List.Forall₂ (NamedEntry m invocation) named entries) :
    (∃ values : List Token, Fills (positionalState m positional).arguments entries
        (values.map some)) ↔
      (named.map argumentName).Perm ((m.parameters.drop positional.length).map (·.value)) := by
  have hfull : (∃ values : List Token, Fills (positionalState m positional).arguments entries
      (values.map some)) ↔ ∃ filled, Fills (positionalState m positional).arguments entries filled ∧
        none ∉ filled := by
    simp only [none_not_mem_iff]
    constructor
    · rintro ⟨values, hfills⟩
      exact ⟨_, hfills, values, rfl⟩
    · rintro ⟨_, hfills, values, rfl⟩
      exact ⟨values, hfills⟩
  rw [hfull, exists_full_iff, names_perm_iff hdistinct, map_fst_entries hentries]
  simp only [positionalState_free]
  constructor
  · rintro ⟨hnodup, hmem⟩
    exact (List.perm_ext_iff_of_nodup hnodup List.nodup_range').mpr hmem
  · intro hperm
    exact ⟨hperm.nodup_iff.mpr List.nodup_range', fun i => hperm.mem_iff⟩

/-- Arguments that match are accepted. -/
theorem readArguments_of_matches (hdistinct : (m.parameters.map (·.value)).Nodup)
    (hsplit : argumentTokens tokens = positional ++ named)
    (hmatches : MatchesParameters m positional named) :
    ∃ entries values, List.Forall₂ (NamedEntry m invocation) named entries ∧
      Fills (positionalState m positional).arguments entries (values.map some) ∧
      readArguments m tokens invocation = .ok values := by
  obtain ⟨entries, hentries⟩ := @exists_entries m invocation named hmatches.valued
  obtain ⟨values, hfills⟩ := (exists_full_iff_names hdistinct hentries).mpr hmatches.names
  obtain ⟨state, hfold, hstate⟩ := (foldlM_named (fun argument h => (hmatches.valued argument h).1)
    (positionalState_length hmatches.count) _).mpr ⟨entries, hentries, hfills⟩
  refine ⟨entries, values, hentries, hfills, readArguments_eq_ok.mpr ⟨state, ?_, hstate⟩⟩
  rw [hsplit, List.foldlM_append, (foldlM_positional hmatches.plain).mpr ⟨hmatches.count, rfl⟩,
    ok_bind, hfold]

/-- Arguments that are accepted match. -/
theorem matches_of_readArguments (hdistinct : (m.parameters.map (·.value)).Nodup)
    (h : readArguments m tokens invocation = .ok values) :
    ∃ positional named, argumentTokens tokens = positional ++ named ∧
      MatchesParameters m positional named := by
  obtain ⟨state, hfold, hstate⟩ := readArguments_eq_ok.mp h
  obtain ⟨positional, named, hsplit, hplain, hhead⟩ := exists_split (argumentTokens tokens)
  rw [hsplit, List.foldlM_append] at hfold
  obtain ⟨middle, hpositional, hnamed⟩ := bind_eq_ok.mp hfold
  obtain ⟨hcount, rfl⟩ := (foldlM_positional hplain).mp hpositional
  have hlength := positionalState_length hcount
  have hall : ∀ argument ∈ named, IsNamed argument := by
    cases named with
    | nil => simp
    | cons argument named =>
        have hargument := hhead argument rfl
        obtain ⟨next, hnext, hrest⟩ := bind_eq_ok.mp hnamed
        obtain ⟨entry, -, -, rfl⟩ := (readArgument_named hargument hlength).mp hnext
        intro other hother
        rcases List.mem_cons.mp hother with rfl | hother
        · exact hargument
        · exact foldlM_only_named rfl hrest (by rw [List.length_set, hlength]) other hother
  obtain ⟨entries, hentries, hfills⟩ := (foldlM_named hall hlength _).mp ⟨state, hnamed, hstate⟩
  refine ⟨positional, named, hsplit, hcount, hplain, fun argument hargument => ?_,
    (exists_full_iff_names hdistinct hentries).mp ⟨values, hfills⟩⟩
  obtain ⟨entry, -, hentry⟩ := exists_entry_of_mem hentries hargument
  obtain ⟨own, hown, -⟩ := hentry.value
  exact ⟨hentry.named, hentry.name, own, hown⟩

/-- **Argument binding.**  For every macro with distinct parameters, the arguments are accepted
exactly if they match, and every parameter gets its own argument. -/
theorem argumentsBound (m : Macro) (tokens : List Token) (invocation : Token)
    (hdistinct : (m.parameters.map (·.value)).Nodup) : ArgumentsBound m tokens invocation where
  accepted := by
    constructor
    · rintro ⟨values, hvalues⟩
      exact matches_of_readArguments hdistinct hvalues
    · rintro ⟨positional, named, hsplit, hmatches⟩
      obtain ⟨-, values, -, -, hvalues⟩ :=
        @readArguments_of_matches m tokens positional named invocation hdistinct hsplit hmatches
      exact ⟨values, hvalues⟩
  bound := by
    intro values positional named hvalues hsplit hmatches
    obtain ⟨entries, values', hentries, hfills, hvalues'⟩ :=
      @readArguments_of_matches m tokens positional named invocation hdistinct hsplit hmatches
    obtain rfl := Except.ok.inj (hvalues.symm.trans hvalues')
    refine ⟨?_, fun i hi => ?_, fun i parameter hi hparameter => ?_⟩
    · have hlength := hfills.length_eq
      rwa [List.length_map, positionalState_length hmatches.count] at hlength
    · -- no named argument takes the slot of a positional one
      have hother : i ∉ entries.map Prod.fst := by
        intro hmem
        obtain ⟨entry, hentry, rfl⟩ := List.mem_map.mp hmem
        have hfree := positionalState_free.mp (hfills.unique_free.2 entry hentry)
        exact absurd (List.mem_range'_1.mp hfree).1 (Nat.not_le.mpr hi)
      have hslot := hfills.getElem?_other hother
      rw [positionalState, List.getElem?_append_left (by rwa [List.length_map]), List.getElem?_map,
        List.getElem?_map] at hslot
      exact Option.map_injective (Option.some_injective _) hslot
    · have hname : parameter.value ∈ (m.parameters.drop positional.length).map (·.value) := by
        refine List.mem_map_of_mem (List.mem_iff_getElem?.mpr ⟨i - positional.length, ?_⟩)
        rw [List.getElem?_drop, Nat.add_sub_cancel' hi, hparameter]
      obtain ⟨argument, hargument, hvalue⟩ :=
        List.mem_map.mp (hmatches.names.symm.subset hname)
      obtain ⟨entry, hmem, hentry⟩ := exists_entry_of_mem hentries hargument
      have hindex : entry.1 = i := by
        rw [hentry.index, ← parameterIndex_of_getElem? hdistinct hparameter, ← hvalue]
        rfl
      obtain ⟨own, hown, hplaced⟩ := hentry.value
      refine ⟨argument, hargument, hvalue, own, hown, ?_⟩
      have hslot := hfills.getElem?_entry entry hmem
      rw [hindex, hplaced, List.getElem?_map] at hslot
      exact Option.map_injective (Option.some_injective _) hslot

end Binding

/-- A macro with two parameters. -/
def pairMacro : Macro where
  name := plainToken .id "pair"
  parameters := [plainToken .id "first", plainToken .id "second"]
  body := []

/-- A positional and a named argument, and a comment. -/
def pairArguments : List Token :=
  [plainToken .intDec "7", plainToken .comma ",", plainToken .id "second=9",
    plainToken .comment "; both"]

theorem argumentsBound_pair :
    ArgumentsBound pairMacro pairArguments (plainToken .id "pair") :=
  argumentsBound pairMacro pairArguments (plainToken .id "pair") (by decide)

end Zlvm
