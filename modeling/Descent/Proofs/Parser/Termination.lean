import Mathlib.Data.Fintype.Card
import Descent.Proofs.Analysis.Chains
import Descent.Proofs.Parser.Soundness

/-!
# When reading comes to an end

A parser without conflicts can still call itself forever without consuming
anything (`read_of_recursion`). An expansion is predicted by its first name
alone, but FIRST sees through nullable symbols. So a symbol may be predicted by
a value that none of its routine's branches is there for.

This takes a symbol that conceals a value behind a nullable symbol at the
beginning of an expansion, while the value predicts an expansion through which
the symbol leads back to itself. Where there is no such symbol
(`RecursesFirmly`), every reading ends (`read_halts`).

The heart is `not_callsAhead_cycle`. Suppose symbols called one another in a
circle with the same value ahead. Each of them has only one expansion that the
value predicts, and that one begins with the next symbol of the circle. Then the
value could be taken out of all their FIRST sets at once and the rest would
still be closed. But FIRST is the least closed choice, and the value is in it.

With the circles gone, the calls at one place are well-founded. An induction on
what is left to read, and at each place on these calls, does the rest.
-/

namespace Descent

namespace Grammar

open Analysis FirstFacts

variable {g g₀ : Grammar} {mode : Mode} {value : String} {n m : Nat}

/-! ## Symbols called with the same value ahead -/

/-- In a form there is nothing in front of a symbol but symbols that derive the
empty form. -/
def AheadIn (g : Grammar) : List Token → Nat → Prop
  | [], _ => False
  | .terminal _ :: _, _ => False
  | .nonterminal k :: rest, m =>
      m = k ∨ g.Derives [.nonterminal k] [] ∧ g.AheadIn rest m

theorem AheadIn.exists_append {form : List Token} (h : g.AheadIn form m) :
    ∃ before after, form = before ++ .nonterminal m :: after ∧
      ∀ token ∈ before, ∃ k, token = .nonterminal k ∧
        g.Derives [.nonterminal k] [] := by
  induction form with
  | nil => exact h.elim
  | cons token rest ih =>
      cases token with
      | terminal id => exact h.elim
      | nonterminal k =>
          rcases h with rfl | ⟨hnull, hrest⟩
          · exact ⟨[], rest, rfl, fun _ hmem => absurd hmem List.not_mem_nil⟩
          · obtain ⟨before, after, rfl, hbefore⟩ := ih hrest
            exact ⟨.nonterminal k :: before, after, rfl,
              List.forall_mem_cons.mpr ⟨⟨k, rfl, hnull⟩, hbefore⟩⟩

theorem AheadIn.leads {form : List Token} (h : g.AheadIn form m)
    (mem : form ∈ g.rightSides n) : g.Leads n m := by
  obtain ⟨before, after, rfl, hbefore⟩ := h.exists_append
  exact ⟨before, after, mem, hbefore⟩

/-- With a value ahead, the first symbol's routine may take an expansion that
reads the second symbol with the same value ahead. -/
def CallsAhead (g : Grammar) (value : String) (n m : Nat) : Prop :=
  ∃ symbol expansion, symbolAt? g.symbols n = some symbol ∧
    expansion ∈ symbol.expansions ∧ g.claims value expansion = true ∧
    g.AheadIn (expansion.filterMap g.resolve) m

theorem CallsAhead.leads (h : g.CallsAhead value n m) : g.Leads n m := by
  obtain ⟨symbol, expansion, hat, hmem, -, hahead⟩ := h
  exact hahead.leads (mem_rightSides.mpr ⟨symbol, hat, expansion, hmem, rfl⟩)

/-- One of the symbol's expansions begins with a nullable symbol, and behind
that stands what FIRST takes a terminal with the value from. -/
def Conceals (g : Grammar) (mode : Mode) (n : Nat) (value : String) : Prop :=
  ∃ k rest t, .nonterminal k :: rest ∈ g.rightSides n ∧
    nullableAt g.symbols k = true ∧ (factsOf g.symbols).Begins mode rest t ∧
    g.header.value? t = some value

/-- Through the expansion its symbol leads back to itself. -/
def LeadsBack (g : Grammar) (n : Nat) (expansion : Expansion) : Prop :=
  ∃ m, g.AheadIn (expansion.filterMap g.resolve) m ∧
    Relation.ReflTransGen g.Leads m n

theorem LeadsBack.leads {symbol : Symbol} {expansion : Expansion}
    (h : g.LeadsBack n expansion) (hat : symbolAt? g.symbols n = some symbol)
    (hmem : expansion ∈ symbol.expansions) : Relation.TransGen g.Leads n n := by
  obtain ⟨m, hahead, hback⟩ := h
  exact .head' (hahead.leads
    (mem_rightSides.mpr ⟨symbol, hat, expansion, hmem, rfl⟩)) hback

/-- No expansion through which a symbol leads back to itself is predicted by a
value that the symbol conceals. -/
def RecursesFirmly (g : Grammar) (mode : Mode) : Prop :=
  ∀ n symbol, symbolAt? g.symbols n = some symbol →
    ∀ expansion ∈ symbol.expansions, g.LeadsBack n expansion →
      ∀ value, g.claims value expansion = true → ¬ g.Conceals mode n value

/-! ## There is no circle -/

/-- What the argument about circles needs of a grammar: it is analyzed, all its
names stand for something, there is no conflict, and recursion is firm. -/
structure Dispatched (g : Grammar) (mode : Mode) : Prop where
  closed : (factsOf g.symbols).Closed g mode
  least {f : FirstFacts} (hf : f.Closed g mode)
    (hnull : ∀ n, (factsOf g.symbols).nullable n → f.nullable n) :
    factsOf g.symbols ≤ f
  resolved {n : Nat} {symbol : Symbol}
    (hat : symbolAt? g.symbols n = some symbol) {expansion : Expansion}
    (hmem : expansion ∈ symbol.expansions) :
    expansion.map g.resolve = (expansion.filterMap g.resolve).map some
  unique {n : Nat} {symbol : Symbol}
    (hat : symbolAt? g.symbols n = some symbol) {value : String}
    {expansion expansion' : Expansion} (hmem : expansion ∈ symbol.expansions)
    (hmem' : expansion' ∈ symbol.expansions)
    (hclaim : g.claims value expansion = true)
    (hclaim' : g.claims value expansion' = true) : expansion = expansion'
  firm : g.RecursesFirmly mode

/-- A symbol that is called again with the same value ahead. -/
def Circular (g : Grammar) (value : String) (n : Nat) : Prop :=
  Relation.TransGen (g.CallsAhead value) n n

/-- The next symbol of a circle. -/
theorem Circular.next (h : g.Circular value n) :
    ∃ m, g.CallsAhead value n m ∧ g.Circular value m := by
  obtain ⟨m, hcall, hback⟩ := Relation.TransGen.head'_iff.mp h
  exact ⟨m, hcall, Relation.TransGen.tail' hback hcall⟩

theorem begins_of_aheadIn {f : FirstFacts} {form : List Token} {t : Nat}
    (hf : f.Closed g mode) (hahead : g.AheadIn form m) (hfirst : f.first m t) :
    f.Begins mode form t := by
  induction form with
  | nil => exact hahead.elim
  | cons token rest ih =>
      cases token with
      | terminal id => exact hahead.elim
      | nonterminal k =>
          rcases hahead with rfl | ⟨hnull, hrest⟩
          · exact Or.inl hfirst
          · exact Or.inr ⟨hf.nullable_of_derives hnull, ih hrest⟩

/-- The facts of a table without a value's terminals in the FIRST sets of the
symbols that are circular for it. -/
def withoutCircles (g : Grammar) (value : String) : FirstFacts where
  nullable := (factsOf g.symbols).nullable
  first n t := (factsOf g.symbols).first n t ∧
    ¬ (g.Circular value n ∧ g.header.value? t = some value)

theorem withoutCircles_le : g.withoutCircles value ≤ factsOf g.symbols :=
  ⟨id, fun h => h.1⟩

namespace Dispatched

variable {symbol : Symbol} {expansion : Expansion} {right : List Token}

/-- What begins the first token of a right side is claimed. -/
theorem claims_of_right (hg : Dispatched g mode)
    (hat : symbolAt? g.symbols n = some symbol)
    (hmem : expansion ∈ symbol.expansions) {token : Token} {rest : List Token}
    (hright : expansion.filterMap g.resolve = token :: rest) {t : Nat}
    (hbegins : (factsOf g.symbols).Begins .follow [token] t)
    (hvalue : g.header.value? t = some value) :
    g.claims value expansion = true := by
  have hresolved := hg.resolved hat hmem
  rw [hright, List.map_cons] at hresolved
  obtain ⟨leading, names, rfl, hleading, -⟩ := List.map_eq_cons_iff.mp hresolved
  exact claims_iff.mpr ⟨token, hleading, t, hbegins, hvalue⟩

theorem not_conceals_of_circular (hg : Dispatched g mode)
    (hcircle : g.Circular value n) : ¬ g.Conceals mode n value := by
  obtain ⟨m, hcall, hback⟩ := Relation.TransGen.head'_iff.mp hcircle
  obtain ⟨symbol, expansion, hat, hmem, hclaim, hahead⟩ := hcall
  have hleads : Relation.ReflTransGen g.Leads m n :=
    Relation.ReflTransGen.mono (fun _ _ => CallsAhead.leads) _ _ hback
  exact hg.firm n symbol hat expansion hmem ⟨m, hahead, hleads⟩ value hclaim

/-- On a circle, whatever claims the value begins with a symbol that is on the
circle as well. -/
theorem leading_of_circular (hg : Dispatched g mode)
    (hcircle : g.Circular value n)
    (hat : symbolAt? g.symbols n = some symbol)
    (hmem : expansion ∈ symbol.expansions)
    (hclaim : g.claims value expansion = true) :
    ∃ k rest, expansion.filterMap g.resolve = .nonterminal k :: rest ∧
      g.Circular value k := by
  obtain ⟨m, hcall, hnext⟩ := hcircle.next
  obtain ⟨symbol', expansion', hat', hmem', hclaim', hahead⟩ := hcall
  obtain rfl : symbol = symbol' := Option.some.inj (hat.symm.trans hat')
  obtain rfl := hg.unique hat hmem hmem' hclaim hclaim'
  have hin : expansion.filterMap g.resolve ∈ g.rightSides n :=
    mem_rightSides.mpr ⟨symbol, hat, expansion, hmem, rfl⟩
  generalize expansion.filterMap g.resolve = right at hahead hin
  cases right with
  | nil => exact hahead.elim
  | cons token rest =>
      cases token with
      | terminal id => exact hahead.elim
      | nonterminal k =>
          rcases hahead with rfl | ⟨hnull, hrest⟩
          · exact ⟨m, rest, rfl, hnext⟩
          · -- The next symbol has the value in FIRST, so `k` would conceal it.
            obtain ⟨_, ⟨_, _, hat', hmem', hclaim', -⟩, -⟩ := hnext.next
            obtain ⟨t, hfirst, hvalue⟩ :=
              exists_first_of_claims hg.closed hat' hmem' hclaim'
            exact absurd ⟨k, rest, t, hin, hg.closed.nullable_of_derives hnull,
              begins_of_aheadIn hg.closed hrest hfirst, hvalue⟩
              (hg.not_conceals_of_circular hcircle)

/-- Once the value is taken out, the first token of a right side of a symbol on
a circle does not begin with it. -/
theorem not_begins_leading (hg : Dispatched g mode)
    (hcircle : g.Circular value n) {token : Token} {rest : List Token}
    (mem : token :: rest ∈ g.rightSides n) {t : Nat}
    (hvalue : g.header.value? t = some value) :
    ¬ (g.withoutCircles value).Begins .follow [token] t := by
  intro hbegins
  obtain ⟨symbol, hat, expansion, hmem, hright⟩ := mem_rightSides.mp mem
  have hclaim := hg.claims_of_right hat hmem hright
    (hbegins.mono withoutCircles_le) hvalue
  obtain ⟨k, rest', hright', hnext⟩ :=
    hg.leading_of_circular hcircle hat hmem hclaim
  rw [hright, List.cons.injEq] at hright'
  obtain ⟨rfl, -⟩ := hright'
  exact (hbegins.resolve_right fun h => h.2).2 ⟨hnext, hvalue⟩

theorem not_begins_withoutCircles (hg : Dispatched g mode)
    (hcircle : g.Circular value n) (mem : right ∈ g.rightSides n) {t : Nat}
    (hvalue : g.header.value? t = some value) :
    ¬ (g.withoutCircles value).Begins mode right t := by
  intro hbegins
  cases right with
  | nil => exact hbegins
  | cons token rest =>
      have hleading := hg.not_begins_leading hcircle mem hvalue
      cases token with
      | terminal id => exact hleading ⟨rfl, hbegins.2⟩
      | nonterminal k =>
          rcases hbegins with hfirst | ⟨hnull, hrest⟩
          · exact hleading (Or.inl hfirst)
          · exact hg.not_conceals_of_circular hcircle ⟨k, rest, t, mem, hnull,
              hrest.mono withoutCircles_le, hvalue⟩

theorem withoutCircles_closed (hg : Dispatched g mode) :
    (g.withoutCircles value).Closed g mode where
  seeded mem := ⟨hg.closed.seeded mem, fun ⟨hcircle, hvalue⟩ =>
    hg.not_begins_leading hcircle mem hvalue ⟨rfl, rfl⟩⟩
  first mem h := ⟨hg.closed.first mem (h.mono withoutCircles_le),
    fun ⟨hcircle, hvalue⟩ =>
      hg.not_begins_withoutCircles hcircle mem hvalue h⟩
  nullable mem h := hg.closed.nullable mem (h.mono withoutCircles_le)

/-- No symbol is called again with the same value ahead. -/
theorem not_callsAhead_cycle (hg : Dispatched g mode) :
    ¬ Relation.TransGen (g.CallsAhead value) n n := by
  intro hcircle
  obtain ⟨_, ⟨_, _, hat, hmem, hclaim, -⟩, -⟩ := Circular.next hcircle
  obtain ⟨t, hfirst, hvalue⟩ :=
    exists_first_of_claims hg.closed hat hmem hclaim
  have hle : factsOf g.symbols ≤ g.withoutCircles value :=
    hg.least hg.withoutCircles_closed fun _ hnull => hnull
  exact (hle.first hfirst).2 ⟨hcircle, hvalue⟩

/-- So at each place the calls are well-founded. -/
theorem wellFounded_callsAhead (hg : Dispatched g mode) (value : String) :
    WellFounded fun m n : Fin g.symbols.size =>
      Relation.TransGen (g.CallsAhead value) n m :=
  have : IsTrans (Fin g.symbols.size) fun m n =>
      Relation.TransGen (g.CallsAhead value) n m :=
    ⟨fun _ _ _ h h' => h'.trans h⟩
  have : Std.Irrefl fun m n : Fin g.symbols.size =>
      Relation.TransGen (g.CallsAhead value) n m :=
    ⟨fun _ => hg.not_callsAhead_cycle⟩
  Finite.wellFounded_of_trans_of_irrefl _

end Dispatched

end Grammar

/-! ## Reading that ends -/

namespace Parser

open Analysis Grammar

/-- From some depth of calls on, the outcome is the same, and it is not that the
limit was met. -/
def Settles (outcomes : Nat → Reading) : Prop :=
  ∃ least outcome, outcome ≠ .tooDeep ∧
    ∀ depth, least ≤ depth → outcomes depth = outcome

variable {g g₀ : Grammar} {settings : Settings} {policy : ConflictPolicy}
  {p : Parser} {steps : List Step} {name : String} {values : List String}

theorem settles_const {outcome : Reading} (h : outcome ≠ .tooDeep) :
    Settles fun _ => outcome := ⟨0, outcome, h, fun _ _ => rfl⟩

theorem Settles.congr_succ {outcomes outcomes' : Nat → Reading}
    (heq : ∀ depth, outcomes' (depth + 1) = outcomes depth)
    (h : Settles outcomes) : Settles outcomes' := by
  obtain ⟨least, outcome, hne, hleast⟩ := h
  refine ⟨least + 1, outcome, hne, fun depth hdepth => ?_⟩
  obtain ⟨depth, rfl⟩ : ∃ d, depth = d + 1 := ⟨depth - 1, by omega⟩
  rw [heq, hleast depth (by omega)]

/-- A terminal settles at once unless it is the next value. -/
theorem settles_consume {terminal : Terminal} {index : Nat}
    (h : ∀ rest, values = terminal.value :: rest →
      Settles fun depth => Step.read (p.read depth) steps rest) :
    Settles fun depth =>
      Step.read (p.read depth) (.consume terminal index :: steps) values := by
  cases values with
  | nil => exact settles_const Reading.noConfusion
  | cons value values =>
      by_cases heq : value = terminal.value
      · simp only [Step.read, if_pos heq]
        exact h values (by rw [heq])
      · simp only [Step.read, if_neg heq]
        exact settles_const Reading.noConfusion

/-- A call settles if its symbol does and then, on what that leaves, the other
steps do. -/
theorem settles_call {slot : Nat} {nullable : Bool}
    (hcall : Settles fun depth => p.read depth name values)
    (h : ∀ depth rest, p.read depth name values = .accepted rest →
      Settles fun depth => Step.read (p.read depth) steps rest) :
    Settles fun depth =>
      Step.read (p.read depth) (.call name slot nullable :: steps) values := by
  obtain ⟨least, outcome, hne, hleast⟩ := hcall
  cases outcome with
  | tooDeep => exact absurd rfl hne
  | failed =>
      refine ⟨least, .failed, Reading.noConfusion, fun depth hdepth => ?_⟩
      simp only [Step.read, hleast depth hdepth]
  | accepted rest =>
      obtain ⟨least', outcome, hne, hleast'⟩ :=
        h least rest (hleast least (le_refl _))
      refine ⟨max least least', outcome, hne, fun depth hdepth => ?_⟩
      simp only [Step.read, hleast depth (by omega)]
      exact hleast' depth (by omega)

/-- A symbol settles if the branch does that its routine selects. -/
theorem settles_read (hbuild : build g settings policy = .ok p)
    (h : ∀ symbol, g.symbols.find? name = some symbol → ∀ b,
      (g.routine settings name symbol).branchAhead? values = some b →
      Settles fun depth => Step.read (p.read depth) b.steps values) :
    Settles fun depth => p.read depth name values := by
  cases hfind : g.symbols.find? name with
  | none =>
      have hread : ∀ depth, p.read (depth + 1) name values = .failed := by
        intro depth
        rw [read, routine?_of_build hbuild, hfind]
        rfl
      exact Settles.congr_succ hread (settles_const Reading.noConfusion)
  | some symbol =>
      have hread : ∀ depth, p.read (depth + 1) name values =
          (g.routine settings name symbol).read (p.read depth) values := by
        intro depth
        rw [read, routine?_of_build hbuild, hfind]
        rfl
      refine Settles.congr_succ hread ?_
      cases hb : (g.routine settings name symbol).branchAhead? values with
      | some b =>
          simp only [Routine.read, hb]
          exact h symbol hfind b hb
      | none =>
          simp only [Routine.read, hb]
          split
          · exact settles_const Reading.noConfusion
          · exact settles_const Reading.noConfusion

/-! ## Every reading ends -/

/-- All symbols settle on all lists up to a length. -/
def SettlesWithin (p : Parser) (bound : Nat) : Prop :=
  ∀ values : List String, values.length ≤ bound → ∀ name,
    Settles fun depth => p.read depth name values

theorem SettlesWithin.settles_steps {bound : Nat} (h : p.SettlesWithin bound)
    (hbuild : build g settings policy = .ok p) (steps : List Step)
    (hlength : values.length ≤ bound) :
    Settles fun depth => Step.read (p.read depth) steps values := by
  induction steps generalizing values with
  | nil => exact settles_const Reading.noConfusion
  | cons step steps ih =>
      cases step with
      | consume terminal index =>
          refine settles_consume fun rest heq => ih ?_
          rw [heq, List.length_cons] at hlength
          omega
      | call name slot nullable =>
          refine settles_call (h values hlength name) fun depth rest hread => ?_
          obtain ⟨_, consumed, _, -, heq, -⟩ := derives_of_read hbuild hread
          rw [heq, List.length_append] at hlength
          exact ih (by omega)

/-- At one place: the steps of some names settle if the symbols do that may be
called before a value is consumed. -/
theorem SettlesWithin.settles_ahead {value : String}
    (h : p.SettlesWithin values.length)
    (hbuild : build g settings policy = .ok p) {names : Expansion}
    {index slot : Nat}
    (hahead : ∀ name m, g.symbols.position? name = some m →
      g.AheadIn (names.filterMap g.resolve) m →
      Settles fun depth => p.read depth name (value :: values)) :
    Settles fun depth => Step.read (p.read depth) (g.steps index slot names)
      (value :: values) := by
  induction names generalizing index slot with
  | nil => exact settles_const Reading.noConfusion
  | cons name names ih =>
      cases hname : g.resolve name with
      | none =>
          rw [List.filterMap_cons_none hname] at hahead
          rw [steps_of_unresolved hname]
          exact ih hahead
      | some token =>
          rw [List.filterMap_cons_some hname] at hahead
          cases token with
          | terminal t =>
              obtain ⟨_, -, hsteps⟩ := steps_of_terminal hname
              rw [hsteps]
              refine settles_consume fun rest heq => h.settles_steps hbuild _ ?_
              rw [(List.cons.inj heq).2]
          | nonterminal n =>
              obtain ⟨nullable, hsteps⟩ := steps_of_nonterminal hname
              have hn := (findTerminal?_of_nonterminal hname).2
              rw [hsteps]
              refine settles_call (hahead name n hn (Or.inl rfl)) ?_
              intro depth rest hread
              obtain ⟨m, consumed, word, hm, heq, hemits, hd⟩ :=
                derives_of_read hbuild hread
              cases consumed with
              | nil =>
                  -- Nothing is consumed, so what comes next is still ahead.
                  obtain rfl := List.map_eq_nil_iff.mp hemits
                  obtain rfl := Option.some.inj (hn.symm.trans hm)
                  rw [← heq.trans (List.nil_append rest)]
                  exact ih fun other k hk hin =>
                    hahead other k hk (Or.inr ⟨hd, hin⟩)
              | cons first consumed =>
                  rw [List.cons_append, List.cons.injEq] at heq
                  refine h.settles_steps hbuild _ ?_
                  rw [heq.2, List.length_append]
                  omega

/-- At one place every symbol settles, if all do on shorter lists. -/
theorem SettlesWithin.settles_place {mode : Mode} {value : String}
    (h : p.SettlesWithin values.length) (hg : Dispatched g mode)
    (hbuild : build g settings policy = .ok p) (name : String) :
    Settles fun depth => p.read depth name (value :: values) := by
  have hplace : ∀ n : Fin g.symbols.size, ∀ name,
      g.symbols.position? name = some n.1 →
      Settles fun depth => p.read depth name (value :: values) := by
    intro n
    induction n using (hg.wellFounded_callsAhead value).induction with
    | h n ih =>
        intro name hn
        obtain ⟨symbol, hfind, hat⟩ := find?_of_position? hn
        refine settles_read hbuild fun symbol' hfind' b hb => ?_
        obtain rfl : symbol = symbol' :=
          Option.some.inj (hfind.symm.trans hfind')
        obtain ⟨expansion, hmem, hclaim, hsteps⟩ := exists_of_branchFor? hb
        rw [hsteps]
        refine h.settles_ahead hbuild fun other m hm hahead => ?_
        exact ih ⟨m, Table.lt_size_of_position? hm⟩
          (.single ⟨symbol, expansion, hat, hmem, hclaim, hahead⟩) other hm
  cases hposition : g.symbols.position? name with
  | some n =>
      exact hplace ⟨n, Table.lt_size_of_position? hposition⟩ name hposition
  | none =>
      refine settles_read hbuild fun symbol hfind => ?_
      obtain ⟨n, hn, -⟩ := position?_of_find? hfind
      rw [hposition] at hn
      cases hn

theorem settlesWithin {mode : Mode} (hg : Dispatched g mode)
    (hbuild : build g settings policy = .ok p) (bound : Nat) :
    p.SettlesWithin bound := by
  induction bound with
  | zero =>
      intro values hlength name
      obtain rfl := List.length_eq_zero_iff.mp (Nat.le_zero.mp hlength)
      exact settles_read hbuild fun _ _ _ hb => by cases hb
  | succ bound ih =>
      intro values hlength name
      cases values with
      | nil => exact settles_read hbuild fun _ _ _ hb => by cases hb
      | cons value values =>
          have hshort : p.SettlesWithin values.length := fun others hothers =>
            ih others (hothers.trans (Nat.le_of_succ_le_succ hlength))
          exact hshort.settles_place hg hbuild name

theorem dispatched_of_build {source : String} {mode : Mode}
    (hparse : Grammar.parse source = .ok g₀)
    (hanalyze : g₀.analyze mode = .ok g)
    (hbuild : build g settings .deny = .ok p) (hfirm : g.RecursesFirmly mode) :
    Dispatched g mode where
  closed := closed_of_analyze_self hanalyze
  least hf hnull := facts_le_of_closed hparse hanalyze hf hnull
  resolved hat _ hmem :=
    map_resolve_of_build hbuild (mem_values_of_symbolAt hat) hmem
  unique hat _ _ _ hmem hmem' hclaim hclaim' := by
    obtain ⟨_, -, hfind⟩ := exists_position?_of_symbolAt hat
    have hconf :=
      conflicts_of_build hbuild (conflicts_of_build_deny hbuild) hfind
    exact expansion_eq_of_claims hconf hmem hmem' hclaim hclaim'
  firm := hfirm

/-- A parser that is built where conflicts are denied comes to an end on every
list of values, whichever symbol it reads, if no expansion through which a
symbol leads back to itself is predicted by a value that the symbol conceals. -/
theorem read_halts {source : String} {mode : Mode}
    (hparse : Grammar.parse source = .ok g₀)
    (hanalyze : g₀.analyze mode = .ok g)
    (hbuild : build g settings .deny = .ok p) (hfirm : g.RecursesFirmly mode)
    (name : String) (values : List String) :
    ∃ least outcome, outcome ≠ .tooDeep ∧
      ∀ depth, least ≤ depth → p.read depth name values = outcome :=
  settlesWithin (dispatched_of_build hparse hanalyze hbuild hfirm) hbuild
    values.length values (le_refl _) name

/-- A source where `a` conceals `X` but does not lead back to itself, and `c`
leads back to itself but conceals nothing. -/
def firmSource : String :=
  "X = x\nY = y\n%%\na := b X\nb := Y\nb :=\nc := c X\n%%"

/-- The grammar of `firmSource`. -/
def firm : Grammar where
  header := .ofItems [.terminal "X" "x", .terminal "Y" "y"]
  symbols := Symbol.tableOfRules
    [⟨"a", ["b", "X"]⟩, ⟨"b", ["Y"]⟩, ⟨"b", []⟩, ⟨"c", ["c", "X"]⟩]

/-- The same grammar with its sets. -/
def firmAnalyzed : Grammar :=
  { firm with symbols := (firm.analysis .follow).symbols }

/-- The parser of `firmAnalyzed`. -/
def firmParser : Parser :=
  firmAnalyzed.parserFrom (.ofHeader firmAnalyzed.header) (some "a")

theorem recursesFirmly_firm : firmAnalyzed.RecursesFirmly .follow := by
  have hunmentioned : ∀ n < 3, ∀ right ∈ firmAnalyzed.rightSides n,
      Token.nonterminal 0 ∉ right := by decide
  have hfirm : ∀ n < 3, ∀ right ∈ firmAnalyzed.rightSides n,
      ∀ token ∈ right.head?, ∀ k < 3, token = .nonterminal k →
        nullableAt firmAnalyzed.symbols k = true → n = 0 := by decide
  rintro n symbol hat expansion hmem hback value - ⟨k, rest, t, mem, hnull, -⟩
  have hn : n = 0 := hfirm n (lt_size_of_mem_rightSides mem) _ mem _ rfl k
    (mentions_of_mem mem k List.mem_cons_self) rfl hnull
  subst hn
  -- Nothing leads to `a`.
  obtain ⟨m, -, before, after, hright, -⟩ :=
    Relation.TransGen.tail'_iff.mp (hback.leads hat hmem)
  exact hunmentioned m (lt_size_of_mem_rightSides hright) _ hright
    (List.mem_append_right _ List.mem_cons_self)

theorem read_halts_firm :
    Grammar.parse firmSource = .ok firm ∧
      firm.analyze .follow = .ok firmAnalyzed ∧
      build firmAnalyzed (.ofHeader firmAnalyzed.header) .deny =
        .ok firmParser ∧
      firmAnalyzed.RecursesFirmly .follow ∧
      ∃ least outcome, outcome ≠ .tooDeep ∧ ∀ depth, least ≤ depth →
        firmParser.read depth "a" ["y", "x"] = outcome := by
  have hparse : Grammar.parse firmSource = .ok firm := by rfl
  have hanalyze : firm.analyze .follow = .ok firmAnalyzed := by rfl
  have hbuild : build firmAnalyzed (.ofHeader firmAnalyzed.header) .deny =
      .ok firmParser := by rfl
  exact ⟨hparse, hanalyze, hbuild, recursesFirmly_firm,
    read_halts hparse hanalyze hbuild recursesFirmly_firm "a" ["y", "x"]⟩

/-- A source where `a` leads back to itself and conceals `X` behind `m`, which
is predicted by nothing. -/
def concealedSource : String :=
  "X = x\n%%\na := m X\na := a\nm :=\n%%"

/-- The grammar of `concealedSource`. -/
def concealed : Grammar where
  header := .ofItems [.terminal "X" "x"]
  symbols := Symbol.tableOfRules [⟨"a", ["m", "X"]⟩, ⟨"a", ["a"]⟩, ⟨"m", []⟩]

/-- The same grammar with its sets. -/
def concealedAnalyzed : Grammar :=
  { concealed with symbols := (concealed.analysis .follow).symbols }

/-- The parser of `concealedAnalyzed`. -/
def concealedParser : Parser :=
  concealedAnalyzed.parserFrom (.ofHeader concealedAnalyzed.header) (some "a")

/-- Being free of conflicts is not enough. -/
theorem read_of_recursion :
    Grammar.parse concealedSource = .ok concealed ∧
      concealed.analyze .follow = .ok concealedAnalyzed ∧
      build concealedAnalyzed (.ofHeader concealedAnalyzed.header) .deny =
        .ok concealedParser ∧
      ∀ depth, concealedParser.read depth "a" ["x"] = .tooDeep := by
  have hparse : Grammar.parse concealedSource = .ok concealed := by rfl
  have hanalyze : concealed.analyze .follow = .ok concealedAnalyzed := by rfl
  have hbuild : build concealedAnalyzed (.ofHeader concealedAnalyzed.header)
      .deny = .ok concealedParser := by rfl
  refine ⟨hparse, hanalyze, hbuild, fun depth => ?_⟩
  induction depth with
  | zero => rfl
  | succ depth ih =>
      have hstep : concealedParser.read (depth + 1) "a" ["x"] =
          Step.read (concealedParser.read depth) [.call "a" 0 false] ["x"] := by
        rfl
      rw [hstep, Step.read, ih]

end Parser

end Descent
