import Descent.Proofs.Analysis.Result
import Descent.Proofs.Grammar.Growth
import Descent.Proofs.Parser.Predictions

/-!
# The list of conflicts

A parser reports a terminal of an expansion exactly if an earlier expansion of
the symbol owns the terminal's value (`mem_conflicts_iff`). The reports come in
the order of the file and each of them once (`pairwise_conflicts`), and the
policy has no other effect than to make the first of them fatal.

Settling walks along the expansions and hands on what the earlier ones own. The
first lemmas take that away: what an expansion is refused depends on the owners
in the end (`conflicts_dispatch`), because a value that the expansion claims has
its owner at the latest when the expansion is settled.
-/

namespace Descent

/-! ## Refused terminals -/

namespace Prediction

/-- What a settlement refuses depends on the earlier owners alone. -/
theorem refused_eq (expansion : Nat) (terminals : List Terminal)
    (owned : Claims) :
    (settle expansion owned terminals).refused =
      terminals.filterMap fun terminal =>
        ((owned.lookup terminal.value).filter (· != expansion)).map
          fun owner => (terminal, owner) := by
  induction terminals generalizing owned with
  | nil => rfl
  | cons terminal terminals ih =>
      unfold settle
      split
      · next hfree =>
          rw [List.filterMap_cons_none (by rw [hfree]; rfl)]
          refine (ih _).trans (List.filterMap_congr fun other _ => ?_)
          rw [Table.lookup_cons]
          split
          · next heq =>
              rw [heq, hfree, Option.filter_some_neg (by simp)]
              rfl
          · rfl
      · next owner howned =>
          split
          · next hown =>
              rw [List.filterMap_cons_none
                (by rw [howned, hown, Option.filter_some_neg (by simp)]; rfl)]
              exact ih owned
          · next hother =>
              rw [List.filterMap_cons_some
                (by rw [howned, Option.filter_some_pos (by simpa using hother)]
                    rfl)]
              exact congrArg _ (ih owned)

end Prediction

namespace Grammar

open Analysis Prediction

variable {g g₀ : Grammar} {mode : Mode} {data : Symbol} {value symbol : String}

/-! ## Conflicts by owner -/

/-- The conflicts that an expansion causes, if some expansion owns each value. -/
def refusals (g : Grammar) (symbol : String) (owner : String → Option Nat)
    (e : Expansion × Nat) : List Conflict :=
  (g.header.terminalsOf (g.predictingSet e.1)).filterMap fun terminal =>
    ((owner terminal.value).filter (· != e.2)).map fun kept =>
      ⟨symbol, terminal.name, kept, e.2⟩

/-- Who owns a value when some expansions have been settled after some claims. -/
def ownerAfter (g : Grammar) (owned : Claims) (es : List (Expansion × Nat))
    (value : String) : Option Nat :=
  (owned.lookup value).or
    ((es.find? fun e => g.claims value e.1).map Prod.snd)

theorem ownerAfter_settle {owned : Claims} {leading : String}
    {names : Expansion} {index : Nat} {es : List (Expansion × Nat)} :
    g.ownerAfter (settle index owned (g.predicting leading)).claims es =
      g.ownerAfter owned ((leading :: names, index) :: es) := by
  funext value
  unfold ownerAfter
  cases howned : owned.lookup value with
  | some owner =>
      rw [(settle_of_owned index _ howned).1, Option.some_or, Option.some_or]
  | none =>
      obtain ⟨hown, hfree, -⟩ := settle_of_free index (g.predicting leading) howned
      rw [Option.none_or, List.find?_cons]
      cases hclaim : g.claims value (leading :: names) with
      | true => rw [hown (claims_cons.mp hclaim)]; rfl
      | false =>
          rw [← Bool.not_eq_true, claims_cons] at hclaim
          rw [hfree hclaim, Option.none_or]

/-- The conflicts of a symbol, expansion by expansion. -/
theorem conflicts_branches (owned : Claims) (es : List (Expansion × Nat)) :
    (g.branches symbol owned es).2 =
      es.flatMap (g.refusals symbol (g.ownerAfter owned es)) := by
  induction es generalizing owned with
  | nil => rfl
  | cons e es ih =>
      obtain ⟨expansion, index⟩ := e
      rw [List.flatMap_cons]
      cases expansion with
      | nil =>
          rw [branches, ih]
          rfl
      | cons leading names =>
          rw [branches, ← ownerAfter_settle, ← ih]
          refine congrArg (· ++ _) ?_
          rw [Settlement.conflicts, refused_eq, List.map_filterMap, refusals,
            ← predicting_eq]
          refine List.filterMap_congr fun terminal hmem => ?_
          rw [ownerAfter]
          cases howned : owned.lookup terminal.value with
          | some owner =>
              rw [(settle_of_owned index _ howned).1, Option.some_or,
                Option.map_map]
              rfl
          | none =>
              rw [(settle_of_free index _ howned).1 ⟨terminal, hmem, rfl⟩,
                Option.some_or, Option.filter_some_neg (by simp)]
              rfl

theorem conflicts_dispatch (g : Grammar) (name : String) (data : Symbol) :
    (g.dispatch name data).2 =
      data.expansions.zipIdx.flatMap (g.refusals name (g.owner? data)) := by
  have howner : g.ownerAfter [] data.expansions.zipIdx = g.owner? data := by
    funext value
    rw [owner?, List.findIdx?_eq_fst_find?_zipIdx]
    rfl
  rw [dispatch, conflicts_branches, howner]

theorem mem_refusals {owner : String → Option Nat} {e : Expansion × Nat}
    {c : Conflict} :
    c ∈ g.refusals symbol owner e ↔
      c.symbol = symbol ∧ c.shadowed = e.2 ∧ ∃ t ∈ g.predictingSet e.1,
        ∃ value, g.header.terminal? t = some ⟨c.terminal, value⟩ ∧
          owner value = some c.kept ∧ c.kept ≠ e.2 := by
  obtain ⟨name, terminal, kept, shadowed⟩ := c
  simp only [refusals, Header.terminalsOf, List.mem_filterMap,
    Option.map_eq_some_iff, Option.filter_eq_some_iff, bne_iff_ne,
    Conflict.mk.injEq]
  constructor
  · rintro ⟨found, ⟨t, ht, hat⟩, owner, ⟨howner, hne⟩, rfl, rfl, rfl, rfl⟩
    exact ⟨rfl, rfl, t, ht, found.value, hat, howner, hne⟩
  · rintro ⟨rfl, rfl, t, ht, value, hat, howner, hne⟩
    exact ⟨_, ⟨t, ht, hat⟩, kept, ⟨howner, hne⟩, rfl, rfl, rfl, rfl⟩

/-! ## Which conflicts are reported -/

/-- A terminal predicts the shadowed expansion of a symbol, and the kept one is
the first that its value predicts and stands before the shadowed one. -/
def Conflicting (g : Grammar) (c : Conflict) : Prop :=
  ∃ data t value, g.symbols.find? c.symbol = some data ∧
    g.header.terminal? t = some ⟨c.terminal, value⟩ ∧
    g.Predicts data c.shadowed t value ∧ c.kept < c.shadowed ∧
    (∃ u, g.Predicts data c.kept u value) ∧
    ∀ j u, g.Predicts data j u value → c.kept ≤ j

theorem mem_conflicts_iff {c : Conflict} :
    c ∈ g.conflicts ↔ g.Conflicting c := by
  simp only [conflicts, conflicts_dispatch, List.mem_flatMap, Prod.exists,
    List.mk_mem_zipIdx_iff_getElem?, mem_refusals]
  constructor
  · rintro ⟨name, data, hentry, expansion, index, hat, rfl, rfl, t, ht, value,
      hterminal, howner, hne⟩
    obtain ⟨hkept, hfirst⟩ := owner?_eq_some_iff.mp howner
    have hpredicts : g.Predicts data c.shadowed t value :=
      ⟨expansion, hat, ht, by rw [Header.value?, hterminal, Option.map_some]⟩
    exact ⟨data, t, value, Table.find?_eq_some_iff.mpr hentry, hterminal,
      hpredicts, Nat.lt_of_le_of_ne (hfirst _ _ hpredicts) hne, hkept, hfirst⟩
  · rintro ⟨data, t, value, hfind, hterminal, ⟨expansion, hat, ht, -⟩, hlt,
      hkept, hfirst⟩
    exact ⟨c.symbol, data, Table.find?_eq_some_iff.mp hfind, expansion,
      c.shadowed, hat, rfl, rfl, t, ht, value, hterminal,
      owner?_eq_some_iff.mpr ⟨hkept, hfirst⟩, Nat.ne_of_lt hlt⟩

/-! ## In which order -/

/-- By symbol in the order of declaration, then by shadowed expansion, then by
terminal in the order of declaration. -/
def ReportedBefore (g : Grammar) (c d : Conflict) : Prop :=
  ∃ m n, g.symbols.position? c.symbol = some m ∧
    g.symbols.position? d.symbol = some n ∧
    (m < n ∨ m = n ∧ (c.shadowed < d.shadowed ∨ c.shadowed = d.shadowed ∧
      ∃ t u, g.header.terminalId? c.terminal = some t ∧
        g.header.terminalId? d.terminal = some u ∧ t < u))

theorem not_reportedBefore_self (c : Conflict) : ¬ g.ReportedBefore c c := by
  rintro ⟨m, n, hm, hn, hlt | ⟨-, hlt | ⟨-, t, u, ht, hu, hlt⟩⟩⟩
  · rw [hm, Option.some.injEq] at hn
    omega
  · omega
  · rw [ht, Option.some.injEq] at hu
    omega

theorem terminalId?_of_terminal? {h : Header} {t : Nat} {terminal : Terminal}
    (hat : h.terminal? t = some terminal) :
    h.terminalId? terminal.name = some t := by
  obtain ⟨entry, hentry, rfl⟩ := Option.map_eq_some_iff.mp hat
  exact Table.position?_eq_some_iff.mpr ⟨entry.2, hentry⟩

theorem pairwise_refusals {owner : String → Option Nat} {e : Expansion × Nat}
    {m : Nat} (hm : g.symbols.position? symbol = some m) :
    (g.refusals symbol owner e).Pairwise g.ReportedBefore := by
  rw [refusals, Header.terminalsOf, List.filterMap_filterMap,
    List.pairwise_filterMap]
  refine (g.predictingSet e.1).sorted.imp fun {t u} hlt c hc d hd => ?_
  simp only [Option.bind_eq_some_iff, Option.map_eq_some_iff] at hc hd
  obtain ⟨found, hat, kept, -, rfl⟩ := hc
  obtain ⟨found', hat', kept', -, rfl⟩ := hd
  exact ⟨m, m, hm, hm, Or.inr ⟨rfl, Or.inr ⟨rfl, t, u,
    terminalId?_of_terminal? hat, terminalId?_of_terminal? hat', hlt⟩⟩⟩

theorem pairwise_dispatch {name : String} {m : Nat}
    (hm : g.symbols.position? name = some m) :
    (g.dispatch name data).2.Pairwise g.ReportedBefore := by
  rw [conflicts_dispatch, List.pairwise_flatMap]
  refine ⟨fun e _ => pairwise_refusals hm, ?_⟩
  have hindex := List.pairwise_map.mp (pairwise_zipIdx_snd data.expansions)
  refine hindex.imp fun {e e'} hlt c hc d hd => ?_
  obtain ⟨hname, hshadowed, -⟩ := mem_refusals.mp hc
  obtain ⟨hname', hshadowed', -⟩ := mem_refusals.mp hd
  refine ⟨m, m, by rw [hname, hm], by rw [hname', hm], Or.inr ⟨rfl, Or.inl ?_⟩⟩
  rw [hshadowed, hshadowed']
  exact hlt

theorem symbol_of_mem_dispatch {name : String} {c : Conflict}
    (h : c ∈ (g.dispatch name data).2) : c.symbol = name := by
  rw [conflicts_dispatch] at h
  obtain ⟨e, -, he⟩ := List.mem_flatMap.mp h
  exact (mem_refusals.mp he).1

theorem pairwise_conflicts (g : Grammar) :
    g.conflicts.Pairwise g.ReportedBefore := by
  have hposition : ∀ i (hi : i < g.symbols.entries.length),
      g.symbols.position? g.symbols.entries[i].1 = some i := fun i hi =>
    Table.position?_eq_some_iff.mpr ⟨_, List.getElem?_eq_getElem hi⟩
  rw [conflicts, List.pairwise_flatMap]
  refine ⟨fun entry hentry => ?_, ?_⟩
  · obtain ⟨i, hi, rfl⟩ := List.getElem_of_mem hentry
    exact pairwise_dispatch (hposition i hi)
  · refine List.pairwise_iff_getElem.mpr fun i j hi hj hlt c hc d hd => ?_
    refine ⟨i, j, ?_, ?_, Or.inl hlt⟩
    · rw [symbol_of_mem_dispatch hc, hposition i hi]
    · rw [symbol_of_mem_dispatch hd, hposition j hj]

theorem nodup_conflicts (g : Grammar) : g.conflicts.Nodup := by
  refine (pairwise_conflicts g).imp fun {c d} hbefore heq => ?_
  exact not_reportedBefore_self d (heq ▸ hbefore)

/-! ## Without conflicts -/

theorem exists_owner? {index t : Nat} (h : g.Predicts data index t value) :
    ∃ owner, g.owner? data value = some owner := by
  obtain ⟨expansion, hat, hclaim⟩ := exists_predicts_iff.mp ⟨t, h⟩
  refine Option.ne_none_iff_exists'.mp fun hnone => ?_
  have hnot := List.findIdx?_eq_none_iff.mp hnone expansion
    (List.mem_of_getElem? hat)
  exact Bool.false_ne_true (hnot.symm.trans hclaim)

/-- There is no conflict just if no value predicts two expansions of a symbol. -/
theorem conflicts_eq_nil_iff :
    g.conflicts = [] ↔ ∀ name data, g.symbols.find? name = some data →
      ∀ i j t u value, g.Predicts data i t value → g.Predicts data j u value →
        i = j := by
  constructor
  · intro hnil name data hfind i j t u value hi hj
    obtain ⟨owner, howner⟩ := exists_owner? hi
    obtain ⟨hkept, hfirst⟩ := owner?_eq_some_iff.mp howner
    have hone : ∀ k w, g.Predicts data k w value → k = owner := by
      intro k w hk
      refine Decidable.byContradiction fun hne => ?_
      have hlt := Nat.lt_of_le_of_ne (hfirst k w hk) (Ne.symm hne)
      obtain ⟨-, -, -, hvalue⟩ := id hk
      obtain ⟨terminal, hat, rfl⟩ := Option.map_eq_some_iff.mp hvalue
      have hmem : ⟨name, terminal.name, owner, k⟩ ∈ g.conflicts :=
        mem_conflicts_iff.mpr ⟨data, w, terminal.value, hfind, hat, hk, hlt,
          hkept, hfirst⟩
      rw [hnil] at hmem
      cases hmem
    rw [hone i t hi, hone j u hj]
  · intro hone
    refine List.eq_nil_iff_forall_not_mem.mpr fun c hc => ?_
    obtain ⟨data, t, value, hfind, -, hshadowed, hlt, ⟨u, hkept⟩, -⟩ :=
      mem_conflicts_iff.mp hc
    exact absurd (hone _ _ hfind _ _ _ _ _ hkept hshadowed) (Nat.ne_of_lt hlt)

/-! ## Policies -/

/-- In an analyzed grammar every name stands for something. -/
theorem undefined?_of_analyze (h : g₀.analyze mode = .ok g) :
    g.undefined? g.mentionedNames = none := by
  have hfault : g.fault? = none := fault?_of_analyze h
  refine List.find?_eq_none.mpr fun name hname => ?_
  obtain ⟨s, hs, hflat⟩ := List.mem_flatMap.mp hname
  obtain ⟨expansion, hmem, hname⟩ := List.mem_flatten.mp hflat
  obtain ⟨n, hat⟩ := exists_symbolAt_of_mem_values hs
  obtain ⟨token, htoken⟩ := exists_resolve_of_valid hfault hat hmem hname
  rw [htoken]
  exact Bool.false_ne_true

theorem exists_startSymbol {settings : Settings}
    (hstart : ∀ name ∈ settings.start, name ∈ g.symbols.keys) :
    ∃ start, g.startSymbol settings = .ok start := by
  unfold startSymbol
  split
  · next name hname =>
      rw [if_pos (Table.contains_iff.mpr (hstart name hname))]
      exact ⟨_, rfl⟩
  · exact ⟨_, rfl⟩

/-- The conflicts of an analyzed grammar are reported exactly, in order and once
each, and the policy decides only whether the first of them is fatal. So where
conflicts are denied, a parser is built just if no value predicts two expansions
of one symbol. -/
theorem conflicts_exact {settings : Settings}
    (hanalyze : g₀.analyze mode = .ok g)
    (hstart : ∀ name ∈ settings.start, name ∈ g.symbols.keys) :
    ∃ p, Parser.build g settings .ignore = .ok p ∧
      (∀ c, c ∈ p.conflicts ↔ g.Conflicting c) ∧
      p.conflicts.Nodup ∧ p.conflicts.Pairwise g.ReportedBefore ∧
      Parser.build g settings .warn = .ok p ∧
      (p.conflicts = [] → Parser.build g settings .deny = .ok p) ∧
      (∀ c later, p.conflicts = c :: later →
        Parser.build g settings .deny = .error (.conflict c)) ∧
      ((∃ p', Parser.build g settings .deny = .ok p') ↔
        ∀ name data, g.symbols.find? name = some data →
          ∀ i j t u value, g.Predicts data i t value →
            g.Predicts data j u value → i = j) := by
  obtain ⟨start, hstart⟩ := exists_startSymbol hstart
  have hbuild : ∀ policy, Parser.build g settings policy =
      (g.parserFrom settings start).underPolicy policy := fun policy =>
    Parser.build_of_defined hstart (undefined?_of_analyze hanalyze)
  have hfree : g.conflicts = [] → Parser.build g settings .deny =
      .ok (g.parserFrom settings start) := by
    intro hnil
    have hnil : (g.parserFrom settings start).conflicts = [] := hnil
    rw [hbuild, Parser.underPolicy, hnil]
  have hfatal : ∀ c later, g.conflicts = c :: later →
      Parser.build g settings .deny = .error (.conflict c) := by
    intro c later hcons
    have hcons : (g.parserFrom settings start).conflicts = c :: later := hcons
    rw [hbuild, Parser.underPolicy, hcons]
  refine ⟨g.parserFrom settings start, hbuild .ignore,
    fun c => mem_conflicts_iff, nodup_conflicts g, pairwise_conflicts g,
    hbuild .warn, hfree, hfatal, ?_⟩
  rw [← conflicts_eq_nil_iff]
  constructor
  · rintro ⟨p', hp'⟩
    cases hconf : g.conflicts with
    | nil => rfl
    | cons c later =>
        rw [hfatal c later hconf] at hp'
        cases hp'
  · exact fun hnil => ⟨_, hfree hnil⟩

theorem conflicts_exact_overlapping :
    overlapping.analyze .follow = .ok overlappingAnalyzed ∧
      ∃ p, Parser.build overlappingAnalyzed
          (.ofHeader overlappingAnalyzed.header) .ignore = .ok p ∧
        p.conflicts = [⟨"s", "B", 0, 2⟩] ∧
        ∀ c, c ∈ p.conflicts ↔ overlappingAnalyzed.Conflicting c := by
  have hanalyze : overlapping.analyze .follow = .ok overlappingAnalyzed := by
    rfl
  have hstart : ∀ name ∈ (Settings.ofHeader overlappingAnalyzed.header).start,
      name ∈ overlappingAnalyzed.symbols.keys := fun name hname => by
    cases hname
  obtain ⟨p, hbuild, hexact, -⟩ := conflicts_exact hanalyze hstart
  refine ⟨hanalyze, p, hbuild, ?_, hexact⟩
  injection hbuild with hp
  rw [← hp]
  rfl

end Grammar

end Descent
