import Descent.Proofs.C.Calls
import Descent.Proofs.Text.Cut

/-!
# User actions in the text of a function

The lines of a function that return what a user action gives (`returnsAction`) are
those of the calls which the function has as a structure, where the settings do not
begin with a tab (`filter_returnsAction`). Which lines these are can be seen on their
first three characters; behind them stand names, and a name of a user action ends
where the bracket opens.

So the text of a routine calls the action of an expansion if the expansion is the
fallback or has a branch that some token selects (`Routine.calledIndices`). The other
branches are the shadowed ones, and an expansion with a user action is either
shadowed or called (`mem_shadowedIndices_iff`).
-/

namespace Descent

/-! ## Shadowed and called -/

namespace Routine

/-- The expansions with a branch that no token selects. -/
def shadowedIndices (r : Routine) : List Nat :=
  (r.branches.filter fun branch => branch.predictions.isEmpty).map Branch.expansion

variable {r : Routine} {i : Nat}

theorem perm_actionIndices (r : Routine) :
    (r.shadowedIndices ++ r.calledIndices).Perm r.actionIndices := by
  rw [shadowedIndices, calledIndices, actionIndices, ← List.append_assoc, ← List.map_append]
  exact ((List.filter_append_perm _ r.branches).map Branch.expansion).append_right _

theorem mem_shadowedIndices_iff (h : r.actionIndices.Nodup) :
    i ∈ r.shadowedIndices ↔ i ∈ r.actionIndices ∧ i ∉ r.calledIndices := by
  have hnodup := (perm_actionIndices r).nodup_iff.mpr h
  have hmem : i ∈ r.actionIndices ↔ i ∈ r.shadowedIndices ∨ i ∈ r.calledIndices := by
    rw [← (perm_actionIndices r).mem_iff, List.mem_append]
  have hapart : i ∈ r.shadowedIndices → i ∉ r.calledIndices := fun hshadowed hcalled =>
    (List.nodup_append.mp hnodup).2.2 i hshadowed i hcalled rfl
  tauto

end Routine

namespace C

variable {settings : Settings} {name : String}

/-! ## Lines that return -/

/-- Whether a line returns what the user action of a name gives. -/
def returnsAction (name line : String) : Bool :=
  ("\t\treturn " ++ name ++ "(").toList.isPrefixOf line.toList

/-- Settings whose names do not begin with a tab. -/
structure Flush (settings : Settings) : Prop where
  namePrefix : settings.namePrefix.toList.head? ≠ some '\t'
  tokenType : settings.tokenType.toList.head? ≠ some '\t'

/-- A line that begins otherwise returns nothing. -/
theorem filter_returnsAction_eq_nil {lines : List String}
    (h : ∀ line ∈ lines, ¬ ['\t', '\t', 'r'] <+: line.toList) :
    lines.filter (returnsAction name) = [] := by
  refine List.filter_eq_nil_iff.mpr fun line hline hreturns => h line hline ?_
  rw [returnsAction, List.isPrefixOf_iff_prefix, String.toList_append, String.toList_append,
    List.append_assoc] at hreturns
  have hstart : ['\t', '\t', 'r'] <+: "\t\treturn ".toList := by decide
  exact hstart.trans ((List.prefix_append _ _).trans hreturns)

theorem not_prefix_of_head?_ne {text rest : List Char} (htext : text.head? ≠ some '\t')
    (hrest : rest.head? ≠ some '\t') :
    ¬ ['\t', '\t', 'r'] <+: '\t' :: (text ++ rest) := by
  rw [List.cons_prefix_cons]
  rintro ⟨-, hbegins⟩
  obtain ⟨tail, htail⟩ := hbegins
  have hhead := congrArg List.head? htail
  cases text with
  | nil => exact hrest hhead.symm
  | cons c text => exact htext hhead.symm

theorem filter_slotLines (hflush : Flush settings) (slotCount : Nat) :
    (slotLines settings slotCount).filter (returnsAction name) = [] := by
  unfold slotLines
  split
  · refine filter_returnsAction_eq_nil fun line hline => ?_
    obtain rfl := List.mem_singleton.mp hline
    have hline : ("\t" ++ nodePointer settings ++ " nodes[" ++ toString slotCount ++
        "];").toList = '\t' :: (settings.namePrefix.toList ++
          ("_node_t* nodes[" ++ toString slotCount ++ "];").toList) := by
      simp [nodePointer, Settings.nodeType, Settings.prefixed]
    rw [hline]
    exact not_prefix_of_head?_ne hflush.namePrefix (by simp)
  · rfl

theorem filter_checks (checks : List Check) :
    (checks.flatMap (·.lines settings)).filter (returnsAction name) = [] := by
  refine filter_returnsAction_eq_nil fun line hline => ?_
  obtain ⟨check, -, hline⟩ := List.mem_flatMap.mp hline
  simp only [Check.lines, List.mem_cons, List.not_mem_nil, or_false] at hline
  rcases hline with rfl | rfl
  · simp
  · decide

theorem filter_labels (labels : List String) :
    (labels.map fun label => "\tcase " ++ label ++ ":").filter (returnsAction name) = [] := by
  refine filter_returnsAction_eq_nil fun line hline => ?_
  obtain ⟨label, -, rfl⟩ := List.mem_map.mp hline
  simp

theorem filter_case (c : Case) :
    (c.lines settings).filter (returnsAction name) =
      [c.action.line].filter (returnsAction name) := by
  have hblank : [""].filter (returnsAction name) = [] :=
    filter_returnsAction_eq_nil (by decide)
  have hlines : c.lines settings = (c.labels.map fun label => "\tcase " ++ label ++ ":") ++
      c.checks.flatMap (·.lines settings) ++ [c.action.line] ++ [""] := by
    simp [Case.lines]
  rw [hlines, List.filter_append, List.filter_append, List.filter_append, filter_labels,
    filter_checks, hblank, List.append_nil, List.nil_append]
  rfl

theorem filter_fallbackLine (call : Option ActionCall) :
    [fallbackLine call].filter (returnsAction name) =
      (call.toList.map ActionCall.line).filter (returnsAction name) := by
  cases call with
  | none => exact filter_returnsAction_eq_nil (by decide)
  | some call => rfl

theorem filter_cases (cases : List Case) :
    (cases.flatMap (·.lines settings)).filter (returnsAction name) =
      (cases.map fun c => c.action.line).filter (returnsAction name) := by
  induction cases with
  | nil => rfl
  | cons c cases ih =>
      rw [List.flatMap_cons, List.filter_append, filter_case, ih, List.map_cons,
        ← List.filter_append]
      rfl

theorem filter_tokenLines (hflush : Flush settings) :
    ["\t" ++ settings.tokenType ++ " token = " ++ settings.prefixed "peek_next_token" ++ "();",
      "", "\tswitch (token) \x7b"].filter (returnsAction name) = [] := by
  refine filter_returnsAction_eq_nil fun line hline => ?_
  simp only [List.mem_cons, List.not_mem_nil, or_false] at hline
  rcases hline with rfl | rfl | rfl
  · have hline : ("\t" ++ settings.tokenType ++ " token = " ++
        settings.prefixed "peek_next_token" ++ "();").toList = '\t' ::
          (settings.tokenType.toList ++
            (" token = " ++ settings.prefixed "peek_next_token" ++ "();").toList) := by
      simp
    rw [hline]
    exact not_prefix_of_head?_ne hflush.tokenType (by simp)
  · decide
  · decide

/-- The lines of a function that return what a user action gives are those of its calls. -/
theorem filter_returnsAction (hflush : Flush settings) (f : Function) :
    (f.lines settings).filter (returnsAction name) =
      (f.actionCalls.map ActionCall.line).filter (returnsAction name) := by
  have hhead : ["", "static " ++ nodePointer settings ++ " " ++ f.name ++ "(void)",
      "\x7b"].filter (returnsAction name) = [] :=
    filter_returnsAction_eq_nil (by simp)
  have hdefault : ["\tdefault:"].filter (returnsAction name) = [] :=
    filter_returnsAction_eq_nil (by decide)
  have htail : ["\t\x7d", "", "error:", "\treturn NULL;", "\x7d"].filter
      (returnsAction name) = [] := filter_returnsAction_eq_nil (by decide)
  have hlast : ["\tdefault:", fallbackLine f.fallback, "\t\x7d", "", "error:",
        "\treturn NULL;", "\x7d"].filter (returnsAction name) =
      (f.fallback.toList.map ActionCall.line).filter (returnsAction name) := by
    show (["\tdefault:"] ++ ([fallbackLine f.fallback] ++ ["\t\x7d", "", "error:",
      "\treturn NULL;", "\x7d"])).filter (returnsAction name) = _
    rw [List.filter_append, List.filter_append, hdefault, htail, filter_fallbackLine,
      List.nil_append, List.append_nil]
  simp only [Function.lines, Function.actionCalls, List.filter_append, List.map_append,
    List.map_map, hhead, filter_slotLines hflush, filter_tokenLines hflush, filter_cases, hlast,
    List.nil_append]
  rfl

/-! ## The user actions that a routine calls -/

theorem eq_of_prefix_of_not_mem {xs ys rest : List Char} {c : Char} (hxs : c ∉ xs) (hys : c ∉ ys)
    (h : xs ++ [c] <+: ys ++ c :: rest) : xs = ys := by
  obtain ⟨tail, htail⟩ := h
  rw [List.append_assoc, List.singleton_append] at htail
  rcases Text.eq_or_exists_of_cut hxs htail with ⟨heq, -⟩ | ⟨_, rfl, -⟩
  · exact heq
  · exact absurd (List.mem_append_right xs List.mem_cons_self) hys

theorem returnsAction_line_iff {symbol : String} {i j : Nat} {call : ActionCall}
    (hname : settings.actionName symbol j = call.name) :
    returnsAction (settings.actionName symbol i) call.line = true ↔ i = j := by
  have hbracket : '('.isDigit = false := by decide
  simp only [returnsAction, List.isPrefixOf_iff_prefix, ActionCall.line, ← hname,
    Settings.actionName, String.toList_append, List.append_assoc, List.prefix_append_right_inj,
    Nat.toString_eq_repr, Nat.toList_repr]
  constructor
  · intro h
    exact toDigits_inj.mp (eq_of_prefix_of_not_mem (not_mem_toDigits hbracket i)
      (not_mem_toDigits hbracket j) h)
  · rintro rfl
    exact (List.prefix_append_right_inj _).mpr (List.prefix_append _ _)

theorem exists_line_iff (hflush : Flush settings) (f : Function) :
    (∃ line ∈ f.lines settings, returnsAction name line = true) ↔
      ∃ call ∈ f.actionCalls, returnsAction name call.line = true := by
  simp only [← List.mem_filter, filter_returnsAction hflush]
  simp only [List.mem_filter, List.mem_map, exists_exists_and_eq_and]

/-- The text of a routine calls the user action of an expansion exactly if the expansion is
among those that are called. -/
theorem exists_returnsAction_iff (hflush : Flush settings) {r : Routine} {i : Nat} :
    (∃ line ∈ (Function.ofRoutine settings r).lines settings,
        returnsAction (settings.actionName r.symbol i) line = true) ↔
      i ∈ r.calledIndices := by
  have hnames := map_name_actionCalls settings r
  rw [exists_line_iff hflush]
  constructor
  · rintro ⟨call, hcall, hreturns⟩
    obtain ⟨j, hj, hname⟩ := List.mem_map.mp (hnames ▸ List.mem_map_of_mem hcall)
    rw [returnsAction_line_iff hname] at hreturns
    exact hreturns ▸ hj
  · intro hi
    obtain ⟨call, hcall, hname⟩ := List.mem_map.mp (hnames ▸ List.mem_map_of_mem hi)
    exact ⟨call, hcall, (returnsAction_line_iff hname.symm).mpr rfl⟩

end C

end Descent
