import Descent.Proofs.Analysis.Exact
import Descent.Proofs.Parser.Soundness

/-!
# What is derived is read

A parser without conflicts reads every word of its grammar, if two more things
hold: no non-empty expansion begins with a nullable symbol (`LeadsFirmly`), and
where a symbol has an empty expansion, no value both begins and follows it
(`KeepsApart`).

The induction is on `Yields`, so it follows the names of an expansion and goes
down into each of them. Its invariant says what may stand ahead. The terminals
behind a place are all in the FOLLOW set there (`FollowFits`), and the next
value of what is left over comes from a terminal ahead (`StartsIn`). So an empty
expansion is left to the fallback, because no branch is selected by a value of
FOLLOW, and a non-empty one is selected by its own first value, because it does
not vanish.
-/

namespace Descent

namespace Grammar

open Analysis

/-! ## The two conditions -/

/-- Whether a name stands for a nullable symbol. -/
def namesNullable (g : Grammar) (name : String) : Bool :=
  match g.resolve name with
  | some (.nonterminal n) => nullableAt g.symbols n
  | _ => false

/-- No non-empty expansion begins with a nullable symbol. -/
def LeadsFirmly (g : Grammar) : Prop :=
  ∀ symbol ∈ g.symbols.values, ∀ expansion ∈ symbol.expansions,
    ∀ leading ∈ expansion.head?, g.namesNullable leading = false

/-- Where a symbol has an empty expansion, no terminal of its FIRST set shares
its value with a terminal of its FOLLOW set. -/
def KeepsApart (g : Grammar) : Prop :=
  ∀ symbol ∈ g.symbols.values, [] ∈ symbol.expansions →
    ∀ t ∈ g.header.terminalsOf symbol.first,
      ∀ u ∈ g.header.terminalsOf symbol.follow, t.value ≠ u.value

instance (g : Grammar) : Decidable g.LeadsFirmly :=
  inferInstanceAs (Decidable (∀ _ ∈ g.symbols.values, _))

instance (g : Grammar) : Decidable g.KeepsApart :=
  inferInstanceAs (Decidable (∀ _ ∈ g.symbols.values, _))

end Grammar

/-! ## Words and what is ahead -/

namespace Header

variable {h : Header}

/-- The next of some values, if there is one, is that of a terminal ahead. -/
def StartsIn (h : Header) (ahead : Nat → Prop) (values : List String) : Prop :=
  ∀ value rest, values = value :: rest →
    ∃ t, ahead t ∧ h.value? t = some value

theorem startsIn_nil {ahead : Nat → Prop} : h.StartsIn ahead [] := by
  intro value rest heq
  cases heq

theorem StartsIn.mono {ahead ahead' : Nat → Prop} {values : List String}
    (hle : ∀ t, ahead t → ahead' t) (hstart : h.StartsIn ahead values) :
    h.StartsIn ahead' values := by
  intro value rest heq
  obtain ⟨t, ht, hvalue⟩ := hstart value rest heq
  exact ⟨t, hle t ht, hvalue⟩

end Header

namespace Grammar

open Analysis FirstFacts

variable {g : Grammar}

theorem Yields.terminal_lt {form : List Token} {word : List Nat}
    (h : g.Yields form word)
    (hform : ∀ t, .terminal t ∈ form → t < g.header.terminals.size) :
    ∀ t ∈ word, t < g.header.terminals.size := by
  induction h with
  | nil =>
      intro t ht
      cases ht
  | terminal _ ih =>
      intro t ht
      rcases List.mem_cons.mp ht with rfl | ht
      · exact hform _ List.mem_cons_self
      · exact ih (fun u hu => hform u (List.mem_cons_of_mem _ hu)) t ht
  | nonterminal mem _ _ ihhead ihtail =>
      intro t ht
      rcases List.mem_append.mp ht with ht | ht
      · exact ihhead (fun u hu => terminal_lt_of_mem mem hu) t ht
      · exact ihtail (fun u hu => hform u (List.mem_cons_of_mem _ hu)) t ht

theorem startsIn_behind {f : FirstFacts} (hf : f.Closed g .follow)
    {ahead : Nat → Prop} {form : List Token} {word : List Nat}
    {values tail : List String} (hyields : g.Yields form word)
    (hemits : g.header.Emits word values)
    (htail : g.header.StartsIn ahead tail) :
    g.header.StartsIn (Behind f ahead form) (values ++ tail) := by
  cases word with
  | nil =>
      rw [hemits.eq_nil, List.nil_append]
      have hvanishes := hf.vanishes_of_derives hyields.derives trivial
      exact htail.mono fun t ht => Or.inr ⟨hvanishes, ht⟩
  | cons t word =>
      obtain ⟨first, others, rfl, hfirst, -⟩ := hemits.uncons
      intro value rest heq
      injection heq with heq
      have hbegins := hf.begins_of_derives hyields.derives ⟨rfl, rfl⟩
      exact ⟨t, Or.inl hbegins, heq ▸ hfirst⟩

end Grammar

/-! ## Reading with enough depth -/

namespace Parser

open Grammar

/-- Some steps can be taken, and all larger depths of calls agree on what is
left. -/
def Takes (p : Parser) (steps : List Step) (values rest : List String) : Prop :=
  ∃ least, ∀ depth, least ≤ depth →
    Step.read (p.read depth) steps values = .accepted rest

/-- A symbol can be read, and all larger depths of calls agree on what is
left. -/
def Accepts (p : Parser) (name : String) (values rest : List String) : Prop :=
  ∃ least, ∀ depth, least ≤ depth → p.read depth name values = .accepted rest

variable {g : Grammar} {settings : Settings} {policy : ConflictPolicy}
  {p : Parser} {steps : List Step} {values middle rest : List String}

theorem takes_nil : p.Takes [] values values := ⟨0, fun _ _ => rfl⟩

theorem Takes.consume {name value : String} {index : Nat}
    (h : p.Takes steps values rest) :
    p.Takes (.consume ⟨name, value⟩ index :: steps) (value :: values) rest := by
  obtain ⟨least, hleast⟩ := h
  refine ⟨least, fun depth hdepth => ?_⟩
  rw [Step.read, if_pos rfl]
  exact hleast depth hdepth

theorem Takes.call {name : String} {slot : Nat} {nullable : Bool}
    (h : p.Takes steps middle rest) (hcall : p.Accepts name values middle) :
    p.Takes (.call name slot nullable :: steps) values rest := by
  obtain ⟨least, hleast⟩ := h
  obtain ⟨least', hleast'⟩ := hcall
  refine ⟨max least least', fun depth hdepth => ?_⟩
  rw [Step.read, hleast' depth (by omega)]
  exact hleast depth (by omega)

theorem Takes.accepts (hbuild : build g settings policy = .ok p) {name : String}
    {symbol : Symbol} (hfind : g.symbols.find? name = some symbol) {b : Branch}
    (hb : (g.routine settings name symbol).branchAhead? values = some b)
    (h : p.Takes b.steps values rest) : p.Accepts name values rest := by
  obtain ⟨least, hleast⟩ := h
  refine ⟨least + 1, fun depth hdepth => ?_⟩
  obtain ⟨depth, rfl⟩ : ∃ d, depth = d + 1 := ⟨depth - 1, by omega⟩
  rw [read, routine?_of_build hbuild, hfind]
  show (g.routine settings name symbol).read (p.read depth) values = _
  rw [Routine.read, hb]
  exact hleast depth (by omega)

theorem accepts_of_fallback (hbuild : build g settings policy = .ok p)
    {name : String} {symbol : Symbol}
    (hfind : g.symbols.find? name = some symbol)
    (hempty : [] ∈ symbol.expansions)
    (hnone : (g.routine settings name symbol).branchAhead? values = none) :
    p.Accepts name values values := by
  refine ⟨1, fun depth hdepth => ?_⟩
  obtain ⟨depth, rfl⟩ : ∃ d, depth = d + 1 := ⟨depth - 1, by omega⟩
  rw [read, routine?_of_build hbuild, hfind]
  show (g.routine settings name symbol).read (p.read depth) values = _
  rw [Routine.read, hnone]
  show (if (symbol.expansions.idxOf? []).isSome then _ else _) = _
  rw [if_pos (List.isSome_idxOf?.mpr hempty)]

end Parser

/-! ## Selecting the right expansion -/

namespace Grammar

open Analysis FirstFacts

variable {g : Grammar} {settings : Settings} {name value : String}
  {symbol : Symbol} {n : Nat} {values : List String}

/-- What follows a symbol selects none of its branches, if it has an empty
expansion. -/
theorem branchAhead?_eq_none (hf : (factsOf g.symbols).Closed g .follow)
    (hapart : g.KeepsApart) (hat : symbolAt? g.symbols n = some symbol)
    (hempty : [] ∈ symbol.expansions)
    (hstart : g.header.StartsIn (· ∈ symbol.follow) values) :
    (g.routine settings name symbol).branchAhead? values = none := by
  cases values with
  | nil => rfl
  | cons value values =>
      show (g.routine settings name symbol).branchFor? value = none
      cases hb : (g.routine settings name symbol).branchFor? value with
      | none => rfl
      | some b =>
          obtain ⟨expansion, hmem, hclaim, -⟩ := exists_of_branchFor? hb
          have hfirst := exists_first_of_claims hf hat hmem hclaim
          rw [firstAt_of_symbolAt hat] at hfirst
          obtain ⟨t, ht, hvalue⟩ := offers_terminalsOf.mpr hfirst
          obtain ⟨u, hu, hvalue'⟩ :=
            offers_terminalsOf.mpr (hstart value values rfl)
          exact absurd (hvalue.trans hvalue'.symm)
            (hapart symbol (mem_values_of_symbolAt hat) hempty t ht u hu)

theorem LeadsFirmly.not_vanishes (hlead : g.LeadsFirmly)
    (hsymbol : symbol ∈ g.symbols.values) {leading : String}
    {names : Expansion} (hmem : leading :: names ∈ symbol.expansions)
    {token : Token} (htoken : g.resolve leading = some token)
    {rest : List Token} : ¬ (factsOf g.symbols).Vanishes (token :: rest) := by
  cases token with
  | terminal t => exact id
  | nonterminal m =>
      intro hvanishes
      have hnullable : nullableAt g.symbols m = true := hvanishes.1
      have hfirm := hlead symbol hsymbol _ hmem leading rfl
      rw [namesNullable, htoken] at hfirm
      exact Bool.false_ne_true (hfirm.symm.trans hnullable)

/-- What an expansion yields selects its branch. -/
theorem exists_branchAhead? (hf : (factsOf g.symbols).Closed g .follow)
    (hlead : g.LeadsFirmly) (hconf : (g.dispatch name symbol).2 = [])
    (hsymbol : symbol ∈ g.symbols.values) {leading : String}
    {names : Expansion} (hmem : leading :: names ∈ symbol.expansions)
    {token : Token} (htoken : g.resolve leading = some token)
    {rest : List Token} {word : List Nat}
    (hyields : g.Yields (token :: rest) word)
    (hemits : g.header.Emits word values) (tail : List String) :
    ∃ b, (g.routine settings name symbol).branchAhead? (values ++ tail) =
        some b ∧ b.steps = g.steps 0 0 (leading :: names) := by
  have hfirm : ¬ (factsOf g.symbols).Vanishes (token :: rest) :=
    hlead.not_vanishes hsymbol hmem htoken
  cases word with
  | nil =>
      exact absurd (hf.vanishes_of_derives hyields.derives trivial) hfirm
  | cons t word =>
      obtain ⟨value, others, rfl, hvalue, -⟩ := hemits.uncons
      have hbegins := hf.begins_of_derives (t := t) hyields.derives ⟨rfl, rfl⟩
      rw [← List.singleton_append] at hbegins
      have hleading := (begins_append.mp hbegins).resolve_right fun h =>
        hlead.not_vanishes hsymbol hmem htoken h.1
      exact branchFor?_of_claims hconf hmem
        (claims_iff.mpr ⟨token, htoken, t, hleading, hvalue⟩)

end Grammar

/-! ## Words are read -/

namespace Parser

open Analysis Grammar FirstFacts

/-- What completeness asks of a grammar and a parser that was built from it. -/
structure Predictive (g : Grammar) (settings : Settings)
    (policy : ConflictPolicy) (p : Parser) : Prop where
  build : build g settings policy = .ok p
  conflicts : p.conflicts = []
  closed : (factsOf g.symbols).Closed g .follow
  followClosed : FollowClosed g (factsOf g.symbols) (followOfTable g.symbols)
  leadsFirmly : g.LeadsFirmly
  keepsApart : g.KeepsApart

variable {g g₀ : Grammar} {settings : Settings} {policy : ConflictPolicy}
  {p : Parser} {name : String} {n : Nat} {word : List Nat}
  {values tail : List String}

/-- The step down into a symbol: its routine takes the expansion that the word
was made with. -/
theorem Predictive.accepts (hp : Predictive g settings policy p)
    (hname : g.symbols.position? name = some n) {right : List Token}
    (mem : right ∈ g.rightSides n) (hyields : g.Yields right word)
    (hemits : g.header.Emits word values)
    (hstart : g.header.StartsIn (followOfTable g.symbols n) tail)
    (htakes : ∀ names, names.map g.resolve = right.map some →
      p.Takes (g.steps 0 0 names) (values ++ tail) tail) :
    p.Accepts name (values ++ tail) tail := by
  obtain ⟨symbol, hfind, hat⟩ := find?_of_position? hname
  obtain ⟨symbol', hat', expansion, hmem, rfl⟩ := mem_rightSides.mp mem
  rw [hat] at hat'
  injection hat' with hat'
  subst hat'
  have hsymbol := mem_values_of_symbolAt hat
  have hnames := map_resolve_of_build hp.build hsymbol hmem
  cases expansion with
  | nil =>
      cases hyields
      rw [hemits.eq_nil, List.nil_append]
      refine accepts_of_fallback hp.build hfind hmem ?_
      refine branchAhead?_eq_none hp.closed hp.keepsApart hat hmem ?_
      refine hstart.mono fun t ht => ?_
      rw [← followAt_of_symbolAt hat]
      exact ht
  | cons leading names =>
      obtain ⟨token, htoken⟩ := Option.isSome_iff_exists.mp
        (resolve_of_build hp.build hsymbol hmem List.mem_cons_self)
      rw [List.filterMap_cons_some htoken] at hyields
      obtain ⟨b, hb, hsteps⟩ := exists_branchAhead? hp.closed
        hp.leadsFirmly (conflicts_of_build hp.build hp.conflicts hfind)
        hsymbol hmem htoken hyields hemits tail
      refine Takes.accepts hp.build hfind hb ?_
      rw [hsteps]
      exact htakes _ hnames

/-- The names of a form that yields a word can be read one after the other. -/
theorem Predictive.takes (hp : Predictive g settings policy p)
    {form : List Token} (hyields : g.Yields form word) :
    ∀ {names : Expansion} {ahead : Nat → Prop} {values tail : List String}
      {index slot : Nat}, names.map g.resolve = form.map some →
      FollowFits (factsOf g.symbols) (followOfTable g.symbols) ahead form →
      g.header.Emits word values → g.header.StartsIn ahead tail →
      p.Takes (g.steps index slot names) (values ++ tail) tail := by
  induction hyields with
  | nil =>
      intro names ahead values tail index slot hnames _ hemits _
      rw [hemits.eq_nil, List.map_eq_nil_iff.mp hnames]
      exact takes_nil
  | terminal _ ih =>
      intro names ahead values tail index slot hnames hfits hemits hstart
      obtain ⟨name, names, rfl, hname, hrest⟩ := List.map_eq_cons_iff.mp hnames
      obtain ⟨value, others, rfl, hvalue, hothers⟩ := hemits.uncons
      obtain ⟨value', hvalue', hsteps⟩ := steps_of_terminal hname
      rw [hvalue] at hvalue'
      injection hvalue' with hvalue'
      subst hvalue'
      rw [hsteps]
      exact (ih hrest hfits hothers hstart).consume
  | nonterminal mem hhead htail ihhead ihtail =>
      intro names ahead values tail index slot hnames hfits hemits hstart
      obtain ⟨name, names, rfl, hname, hrest⟩ := List.map_eq_cons_iff.mp hnames
      obtain ⟨front, back, rfl, hfront, hback⟩ := hemits.split
      obtain ⟨nullable, hsteps⟩ := steps_of_nonterminal hname
      -- What is left for the rest starts with a terminal of FOLLOW.
      have hbehind := startsIn_behind hp.closed htail hback hstart
      have hfollow := hbehind.mono hfits.1
      rw [hsteps, List.append_assoc]
      refine (ihtail hrest hfits.2 hback hstart).call ?_
      refine hp.accepts (findTerminal?_of_nonterminal hname).2 mem hhead hfront
        hfollow fun names hnames => ?_
      exact ihhead hnames (hp.followClosed _ _ mem) hfront hfollow

theorem predictive_of_analyze (hanalyze : g₀.analyze .follow = .ok g)
    (hbuild : Parser.build g settings policy = .ok p)
    (hconf : p.conflicts = []) (hlead : g.LeadsFirmly)
    (hapart : g.KeepsApart) : Predictive g settings policy p where
  build := hbuild
  conflicts := hconf
  closed := closed_of_analyze_self hanalyze
  followClosed := (followClosed_of_analyze hanalyze).congr
    (rightSides_of_analyze hanalyze)
  leadsFirmly := hlead
  keepsApart := hapart

/-- A parser without conflicts reads, to the end and with bounded depth, what
the lexer emits for any word that a symbol derives, unless an expansion begins
with a nullable symbol or a value both begins and follows a symbol with an empty
expansion. -/
theorem read_of_derives (hanalyze : g₀.analyze .follow = .ok g)
    (hbuild : Parser.build g settings policy = .ok p)
    (hconf : p.conflicts = []) (hlead : g.LeadsFirmly) (hapart : g.KeepsApart)
    (hname : g.symbols.position? name = some n)
    (hword : g.Derives [.nonterminal n] (word.map .terminal)) :
    ∃ values, g.header.Emits word values ∧ ∃ least, ∀ depth, least ≤ depth →
      p.read depth name values = .accepted [] := by
  have hp := predictive_of_analyze hanalyze hbuild hconf hlead hapart
  have hyields := hword.yields
  obtain ⟨values, hemits⟩ := Header.exists_emits (hyields.terminal_lt (by simp))
  refine ⟨values, hemits, ?_⟩
  cases hyields with
  | nonterminal mem hhead htail =>
      cases htail
      rw [List.append_nil] at hemits
      have haccepts := hp.accepts hname mem hhead hemits Header.startsIn_nil
        fun names hnames => hp.takes hhead hnames (hp.followClosed _ _ mem)
          hemits Header.startsIn_nil
      rw [List.append_nil] at haccepts
      exact haccepts

/-- The parser of `listAnalyzed`. -/
def listParser : Parser :=
  listAnalyzed.parserFrom (.ofHeader listAnalyzed.header) (some "list")

theorem derives_listAnalyzed : listAnalyzed.Derives [.nonterminal 0]
    ([0, 1, 1, 2].map .terminal) := by
  have hlist : [.terminal 0, .nonterminal 1, .terminal 2] ∈
      listAnalyzed.rightSides 0 := by decide
  have hmore : [.terminal 1, .nonterminal 1] ∈ listAnalyzed.rightSides 1 := by
    decide
  have hdone : [] ∈ listAnalyzed.rightSides 1 := by decide
  have hitems : listAnalyzed.Yields [.nonterminal 1] [1, 1] :=
    .nonterminal hmore (.terminal (.nonterminal hmore (.terminal
      (.nonterminal hdone .nil .nil)) .nil)) .nil
  have hwhole : listAnalyzed.Yields
      [.terminal 0, .nonterminal 1, .terminal 2] [0, 1, 1, 2] :=
    .terminal (hitems.append (.terminal .nil))
  exact (Derives.of_mem hlist).trans hwhole.derives

theorem read_of_derives_list :
    listGrammar.analyze .follow = .ok listAnalyzed ∧
      Parser.build listAnalyzed (.ofHeader listAnalyzed.header) .deny =
        .ok listParser ∧
      listParser.conflicts = [] ∧ listAnalyzed.LeadsFirmly ∧
      listAnalyzed.KeepsApart ∧
      listAnalyzed.symbols.position? "list" = some 0 ∧
      listAnalyzed.Derives [.nonterminal 0] ([0, 1, 1, 2].map .terminal) ∧
      ∃ values, listAnalyzed.header.Emits [0, 1, 1, 2] values ∧
        ∃ least, ∀ depth, least ≤ depth →
          listParser.read depth "list" values = .accepted [] := by
  have hlead : listAnalyzed.LeadsFirmly := by decide
  have hapart : listAnalyzed.KeepsApart := by decide
  have hbuild : Parser.build listAnalyzed (.ofHeader listAnalyzed.header)
      .deny = .ok listParser := by rfl
  exact ⟨analyze_listGrammar, hbuild, rfl, hlead, hapart, rfl,
    derives_listAnalyzed, read_of_derives analyze_listGrammar hbuild rfl hlead
      hapart rfl derives_listAnalyzed⟩

end Parser

end Descent
