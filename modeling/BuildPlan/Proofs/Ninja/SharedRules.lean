import BuildPlan.Proofs.Ninja.BuildLine
import BuildPlan.Proofs.Project.Usage
import BuildPlan.Proofs.Template.Stack

/-!
# BuildPlan.Proofs.Ninja.SharedRules

The rules that the nodes of a project share. A rule goes by the name of its tool and a short
digest of its body, and of the rules of one name only the first is written. As long as the
digests tell the bodies apart, the rule that is written under a name has the body of every
node that uses it.
-/

namespace BuildPlan

namespace Digest

theorem length_hexDigits (count n : Nat) : (hexDigits count n).length = count := by
  induction count generalizing n with
  | zero => rfl
  | succ count ih => rw [hexDigits, List.length_append, ih, List.length_singleton]

theorem length_sha256 (message : List UInt8) : (sha256 message).toList.length = 64 := by
  simp [sha256, Chain.toList, wordDigits, length_hexDigits]

end Digest

theorem NodeGraph.mem_entries {graph : NodeGraph} {id : NodeId} {node : Node} :
    (id, node) ∈ graph.entries ↔ graph.node? id = some node := by
  rw [NodeGraph.entries, List.mem_map, NodeGraph.node?, ← Array.getElem?_toList]
  constructor
  · rintro ⟨⟨node, index⟩, hmem, heq⟩
    cases heq
    exact List.mem_zipIdx_iff_getElem?.mp hmem
  · intro h
    exact ⟨(node, id.index), List.mem_zipIdx_iff_getElem?.mpr h, rfl⟩

namespace Ninja

/-! ### Names of rules -/

theorem length_shortDigest (body : RuleBody) : body.shortDigest.toList.length = 12 := by
  rw [RuleBody.shortDigest, String.toList_ofList, List.length_take, Digest.length_sha256]
  rfl

/-- The digest is as long in all names, so a name tells the tool and the digest. -/
theorem ruleName_eq_iff {tool tool' : String} {body body' : RuleBody} :
    (Rule.ofBody tool body).name = (Rule.ofBody tool' body').name ↔
      body.shortDigest = body'.shortDigest ∧ plainName tool = plainName tool' := by
  constructor
  · intro h
    have hlist := congrArg String.toList h
    simp only [Rule.ofBody, String.toList_append] at hlist
    obtain ⟨htool, hdigest⟩ := List.append_inj' hlist (by simp only [length_shortDigest])
    refine ⟨String.toList_injective hdigest, String.toList_injective ?_⟩
    exact List.append_cancel_right htool
  · rintro ⟨hdigest, htool⟩
    simp only [Rule.ofBody, hdigest, htool]

/-! ### Rules of one name -/

section Distinct

variable {rules : List Rule} {rule : Rule}

theorem collects_distinctRules (rules : List Rule) :
    Flag.Collects (fun rule known : Rule => rule.name == known.name) [] (· ∈ rules)
      (distinctRules rules) := by
  refine Flag.collects_appendNew ⟨fun _ => ?_, fun h => ?_, fun h h' => ?_⟩ [] rules
  · exact beq_self_eq_true _
  · rw [beq_iff_eq] at h ⊢
    exact h.symm
  · rw [beq_iff_eq] at h h' ⊢
    exact h.trans h'

theorem mem_of_mem_distinctRules (h : rule ∈ distinctRules rules) : rule ∈ rules := by
  obtain ⟨added, heq, hoffered, -⟩ := (collects_distinctRules rules).once
  rw [heq, List.nil_append] at h
  exact hoffered rule h

theorem nodup_names_distinctRules (rules : List Rule) :
    ((distinctRules rules).map Rule.name).Nodup := by
  obtain ⟨added, heq, -, -, honce⟩ := (collects_distinctRules rules).once
  rw [heq, List.nil_append, List.Nodup, List.pairwise_map]
  exact honce.imp fun hne => by simpa using hne

theorem exists_name_distinctRules (h : rule ∈ rules) :
    ∃ known ∈ distinctRules rules, known.name = rule.name := by
  obtain ⟨known, hknown, hname⟩ := ((collects_distinctRules rules).mem_iff rule).mpr
    (.inr ⟨rule, h, beq_self_eq_true _⟩)
  exact ⟨known, hknown, (beq_iff_eq.mp hname).symm⟩

/-- If rules of one name are one rule, all of them are kept, each as the only one of its name. -/
theorem filter_distinctRules (h : rule ∈ rules)
    (hname : ∀ other ∈ rules, other.name = rule.name → other = rule) :
    (distinctRules rules).filter (·.name == rule.name) = [rule] := by
  obtain ⟨known, hknown, heq⟩ := exists_name_distinctRules h
  obtain rfl := hname known (mem_of_mem_distinctRules hknown) heq
  have hnodup : (distinctRules rules).Nodup := (nodup_names_distinctRules rules).of_map
  refine List.perm_singleton.mp ?_
  refine (List.perm_ext_iff_of_nodup (hnodup.filter _) (List.nodup_singleton _)).mpr fun other => ?_
  rw [List.mem_filter, List.mem_singleton, beq_iff_eq]
  constructor
  · rintro ⟨hother, heq⟩
    exact hname other (mem_of_mem_distinctRules hother) heq
  · rintro rfl
    exact ⟨hknown, rfl⟩

end Distinct

/-! ### The statements of a file -/

variable {p : Project} {file : File} {id : NodeId} {node : Node} {step : BuildStep}

/-- The nodes that have a statement, in order. -/
def stated (p : Project) : List (NodeId × Node) := p.graph.entries.filter (·.2.isStated)

/-- A file is made of the statements of the nodes that have one. -/
theorem ofProject_inv (h : File.ofProject p = .ok file) :
    ∃ statements : List Statement,
      List.Forall₂ (fun entry statement => statement? p entry.1 entry.2 = .ok (some statement))
        (stated p) statements ∧
      file.rules = distinctRules (statements.filterMap Statement.rule) ∧
      file.edges = statements.map Statement.edge := by
  rw [File.ofProject, statements_eq] at h
  cases hall : p.graph.entries.mapM fun entry => statement? p entry.1 entry.2 with
  | error e => simp [hall, bind, Except.bind] at h
  | ok all =>
      simp only [hall, bind, Except.bind, pure, Except.pure, Except.ok.injEq] at h
      subst h
      exact ⟨_, forall₂_of_mapM (fun entry _ => isSome_of_statement?) (fun _ _ _ h => h) hall,
        rfl, rfl⟩

/-- The statement of a node that a step makes refers to the rule for the step's body. -/
theorem statement?_of_step {statement : Statement} (hstep : node.step? = some step)
    (h : statement? p id node = .ok (some statement)) :
    ∃ body, RuleBody.ofStep p id step = .ok body ∧
      statement.rule = some (.ofBody step.tool body) ∧
      statement.edge = .ofStep p.graph node step (Rule.ofBody step.tool body).name := by
  unfold Node.step? at hstep
  unfold statement? at h
  cases hkind : node.kind with
  | group name =>
      rw [hkind] at hstep
      cases hstep
  | file path made =>
      rw [hkind] at hstep h
      cases hstep
      cases hbody : RuleBody.ofStep p id step with
      | error e => simp [Rule.ofStep, hbody, bind, Except.bind] at h
      | ok body =>
          simp only [Rule.ofStep, hbody, bind, Except.bind, pure, Except.pure, Except.ok.injEq,
            Option.some.injEq] at h
          subst h
          exact ⟨body, rfl, rfl, rfl⟩

/-- The statement of a group refers to no rule of the file. -/
theorem rule_eq_none_of_step? {statement : Statement} (hstep : node.step? = none)
    (h : statement? p id node = .ok (some statement)) : statement.rule = none := by
  unfold Node.step? at hstep
  unfold statement? at h
  cases hkind : node.kind with
  | group name =>
      rw [hkind] at h
      cases h
      rfl
  | file path made =>
      rw [hkind] at hstep h
      cases hstep
      cases h

/-- The edge that a file has for a node. The edges stand in the order of the nodes. -/
def EdgeOf (p : Project) (file : File) (id : NodeId) (edge : Edge) : Prop :=
  ∃ node, ((id, node), edge) ∈ (stated p).zip file.edges

/-- Of the steps that the project's nodes are made by, those with different bodies have
different digests. -/
def DigestsApart (p : Project) : Prop :=
  ∀ id id' step step' body body', p.graph.step? id = some step → p.graph.step? id' = some step' →
    RuleBody.ofStep p id step = .ok body → RuleBody.ofStep p id' step' = .ok body' →
      body.shortDigest = body'.shortDigest → body = body'

theorem mem_stated : (id, node) ∈ stated p ↔ p.graph.node? id = some node ∧ node.isStated := by
  rw [stated, List.mem_filter, NodeGraph.mem_entries]

theorem step?_of_node? (h : p.graph.node? id = some node) : p.graph.step? id = node.step? := by
  rw [NodeGraph.step?, h, Option.bind_some]

section Statements

variable {statements : List Statement}
  (hall : List.Forall₂ (fun entry statement => statement? p entry.1 entry.2 = .ok (some statement))
    (stated p) statements)

include hall

theorem exists_edge_of_step (hstep : p.graph.step? id = some step) :
    ∃ node edge, ((id, node), edge) ∈ (stated p).zip (statements.map Statement.edge) := by
  obtain ⟨node, hnode, hmade⟩ := Option.bind_eq_some_iff.mp hstep
  have hstated : node.isStated := by
    unfold Node.step? at hmade
    unfold Node.isStated
    cases hkind : node.kind with
    | group name => rfl
    | file path made =>
        rw [hkind] at hmade
        cases hmade
        rfl
  have hlength : (stated p).length = (statements.map Statement.edge).length := by
    rw [List.length_map, hall.length_eq]
  have hmem : (id, node) ∈ ((stated p).zip (statements.map Statement.edge)).map Prod.fst := by
    rw [List.map_fst_zip hlength.le]
    exact mem_stated.mpr ⟨hnode, hstated⟩
  obtain ⟨⟨_, edge⟩, hpair, rfl⟩ := List.mem_map.mp hmem
  exact ⟨node, edge, hpair⟩

/-- The edge of a node that a step makes refers to the rule for the step's body. -/
theorem rule_of_edge (hstep : p.graph.step? id = some step) {edge : Edge}
    (hedge : ((id, node), edge) ∈ (stated p).zip (statements.map Statement.edge)) :
    ∃ body, RuleBody.ofStep p id step = .ok body ∧
      edge = .ofStep p.graph node step (Rule.ofBody step.tool body).name ∧
      Rule.ofBody step.tool body ∈ statements.filterMap Statement.rule := by
  rw [List.zip_map_right, List.mem_map] at hedge
  obtain ⟨⟨entry, statement⟩, hpair, heq⟩ := hedge
  cases heq
  have hnode := (mem_stated.mp (List.of_mem_zip hpair).1).1
  rw [step?_of_node? hnode] at hstep
  obtain ⟨body, hbody, hrule, hedge⟩ :=
    statement?_of_step hstep ((List.forall₂_iff_zip.mp hall).2 hpair)
  exact ⟨body, hbody, hedge, List.mem_filterMap.mpr ⟨statement, (List.of_mem_zip hpair).2, hrule⟩⟩

/-- Each rule is the one for the body of a step. -/
theorem exists_step_of_rule {rule : Rule} (hrule : rule ∈ statements.filterMap Statement.rule) :
    ∃ id step body, p.graph.step? id = some step ∧ RuleBody.ofStep p id step = .ok body ∧
      rule = .ofBody step.tool body := by
  obtain ⟨statement, hmem, hrule⟩ := List.mem_filterMap.mp hrule
  rw [← List.map_snd_zip hall.length_eq.ge, List.mem_map] at hmem
  obtain ⟨⟨⟨id, node⟩, _⟩, hpair, rfl⟩ := hmem
  have hnode := (mem_stated.mp (List.of_mem_zip hpair).1).1
  have hstatement := (List.forall₂_iff_zip.mp hall).2 hpair
  cases hmade : node.step? with
  | none =>
      rw [rule_eq_none_of_step? hmade hstatement] at hrule
      cases hrule
  | some step =>
      obtain ⟨body, hbody, hsome, -⟩ := statement?_of_step hmade hstatement
      rw [hsome, Option.some.injEq] at hrule
      exact ⟨id, step, body, (step?_of_node? hnode).trans hmade, hbody, hrule.symm⟩

/-- Rules of one name are one rule. -/
theorem eq_of_name_eq (hapart : DigestsApart p) {rule other : Rule}
    (hrule : rule ∈ statements.filterMap Statement.rule)
    (hother : other ∈ statements.filterMap Statement.rule) (hname : other.name = rule.name) :
    other = rule := by
  obtain ⟨id, step, body, hstep, hbody, rfl⟩ := exists_step_of_rule hall hrule
  obtain ⟨id', step', body', hstep', hbody', rfl⟩ := exists_step_of_rule hall hother
  have hdigest := (ruleName_eq_iff.mp hname).1
  obtain rfl := hapart _ _ _ _ _ _ hstep' hstep hbody' hbody hdigest
  exact congrArg (Rule.mk · body') hname

end Statements

/-- Two files that are copied by tools whose names come to the same, one that the second of
them links, a source and a group. -/
def sharedTools : Project :=
  let step (tool : String) (kind : StepKind) : BuildStep :=
    { tool, commandVar := "run", kind, command := some [] }
  { name := "demo"
    graph.nodes := #[⟨.file ⟨"a"⟩ (some (step "c-c" .copy)), [⟨3⟩], []⟩,
      ⟨.file ⟨"b"⟩ (some (step "c_c" .copy)), [⟨3⟩], []⟩,
      ⟨.file ⟨"c"⟩ (some (step "c_c" .link)), [], []⟩, ⟨.file ⟨"s"⟩ none, [], []⟩,
      ⟨.group "all", [⟨0⟩], []⟩] }

theorem digestsApart_sharedTools : DigestsApart sharedTools := by
  have hbody : ∀ id step body, sharedTools.graph.step? id = some step →
      RuleBody.ofStep sharedTools id step = .ok body →
        body = ⟨"", "INSTALL $out", none⟩ ∨ body = ⟨"", "LINK $out", none⟩ := by
    rintro ⟨id⟩ step body hstep hbody
    match id with
    | 0 | 1 =>
        cases hstep
        cases hbody
        exact .inl rfl
    | 2 =>
        cases hstep
        cases hbody
        exact .inr rfl
    | 3 | 4 => cases hstep
    | id + 5 => cases hstep
  have hdigest : RuleBody.shortDigest ⟨"", "INSTALL $out", none⟩ ≠
      RuleBody.shortDigest ⟨"", "LINK $out", none⟩ := by decide +kernel
  intro id id' step step' body body' hstep hstep' h h' heq
  rcases hbody id step body hstep h with rfl | rfl <;>
    rcases hbody id' step' body' hstep' h' with rfl | rfl
  · rfl
  · exact absurd heq hdigest
  · exact absurd heq.symm hdigest
  · rfl

end Ninja

end BuildPlan
