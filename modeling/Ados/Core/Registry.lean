import Ados.Core.ExecutorManager

/-!
# The registry of the executor manager

`used_executor_names_` lists the names of the executors that have been initialized, each once, and
`executor_map_` owns exactly these executors, each under its name. That holds after every call,
whether it returns or throws, and at whatever element of the list `Initialize` stops.

## Main definitions

* `timeWheels`, `labels`: the executors that a list asks for, in the order of their creation
* `Accepts`: the lists for which `Initialize` returns
* `ExecutorManager.Registered`: names, map and initialized executors correspond
* `ExecutorManager.Started`: the executor of a name is in the map and has been started

## Main results

* `ExecutorManager.initializeWith_post`, `ExecutorManager.start_post`,
  `ExecutorManager.shutdown_post`: how each call can end
* `ExecutorManager.kept_run`: the registry is consistent after every run
* `ExecutorManager.initialize_registers`: what an `Initialize` that returns has registered
-/

namespace Ados.Core

open Transition

variable {Node : Type}

/-- Class and name of an executor. -/
def Handle.label (h : Handle) : ExecutorType × String := (h.type, h.name)

/-- The entries that the second pass creates an executor for. -/
def timeWheels (l : List (ExecutorOptions Node)) : List (ExecutorOptions Node) :=
  l.filter fun o => o.type = "time_wheel"

/-- The executors in the order of their creation. -/
def labels (c : OptionsCheck Node) (l : List (ExecutorOptions Node)) :
    List (ExecutorType × String) :=
  (.mainThread, c.mainThreadName) :: (.guardThread, c.guardThreadName) ::
    (timeWheels l).map fun o => (.timeWheel, o.name)

/-- `Initialize` returns for this node: it decodes, its entries are where they have to be and of a
known type, no name is used twice, and no executor throws. -/
structure Accepts (faults : InitializeFaults Node) (node : OptionsNode Node)
    (c : OptionsCheck Node) : Prop where
  decodes : ∀ what, node ≠ .throws what
  placed : checkOptions node.executorsOptions = .ok c
  types : ∀ o ∈ node.executorsOptions,
    o.type = "main_thread" ∨ o.type = "guard_thread" ∨ o.type = "time_wheel"
  names : ((labels c node.executorsOptions).map Prod.snd).Nodup
  mainThread : faults .mainThread c.mainThreadName c.mainThreadOptions = none
  guardThread : faults .guardThread c.guardThreadName c.guardThreadOptions = none
  timeWheels : ∀ o ∈ timeWheels node.executorsOptions, faults .timeWheel o.name o.options = none

@[simp] theorem timeWheels_nil : timeWheels ([] : List (ExecutorOptions Node)) = [] := rfl

theorem timeWheels_append (l l' : List (ExecutorOptions Node)) :
    timeWheels (l ++ l') = timeWheels l ++ timeWheels l' := List.filter_append ..

theorem timeWheels_cons_of_eq {o : ExecutorOptions Node} {l : List (ExecutorOptions Node)}
    (h : o.type = "time_wheel") : timeWheels (o :: l) = o :: timeWheels l :=
  List.filter_cons_of_pos (by simp [h])

theorem timeWheels_cons_of_ne {o : ExecutorOptions Node} {l : List (ExecutorOptions Node)}
    (h : o.type ≠ "time_wheel") : timeWheels (o :: l) = timeWheels l :=
  List.filter_cons_of_neg (by simp [h])

theorem labels_append (c : OptionsCheck Node) (l l' : List (ExecutorOptions Node)) :
    labels c (l ++ l') = labels c l ++ (timeWheels l').map fun o => (.timeWheel, o.name) := by
  simp [labels, timeWheels_append]

/-- An entry whose name is in use before it makes a list unacceptable. -/
theorem Accepts.not_mem_labels {faults : InitializeFaults Node} {node : OptionsNode Node}
    {c : OptionsCheck Node} {done rest : List (ExecutorOptions Node)} {o : ExecutorOptions Node}
    (h : Accepts faults node c) (hl : node.executorsOptions = done ++ o :: rest)
    (ho : o.type = "time_wheel") : o.name ∉ (labels c done).map Prod.snd := by
  intro hmem
  have hnames := h.names
  rw [hl, labels_append, timeWheels_cons_of_eq ho, List.map_append, List.nodup_append] at hnames
  exact hnames.2.2 _ hmem _ (by simp) rfl

namespace ExecutorManager

variable {m t : ExecutorManager Node} {faults : InitializeFaults Node} {c : OptionsCheck Node}
  {name : String} {x y : Executor}

/-- What is found in a map after an insertion. -/
theorem lookup_insert_eq_some {map : AList fun _ : String => Executor} {n : String}
    (h : (map.insert name y).lookup n = some x) :
    n = name ∧ x = y ∨ n ≠ name ∧ map.lookup n = some x := by
  by_cases heq : n = name
  · rw [heq, AList.lookup_insert] at h
    exact Or.inl ⟨heq, (Option.some.inj h).symm⟩
  · rw [AList.lookup_insert_ne heq] at h
    exact Or.inr ⟨heq, h⟩

/-! ## The correspondence of names, map and executors -/

/-- The names in use are those of the executors initialized, each once and each a key of the map,
which owns these very executors. -/
structure Registered (m : ExecutorManager Node) : Prop where
  names : m.usedExecutorNames = m.initialized.map Handle.name
  nodup : m.usedExecutorNames.Nodup
  keys : ∀ n, n ∈ m.executorMap ↔ n ∈ m.usedExecutorNames
  ids : m.initialized.map Handle.id = List.range m.initialized.length
  owned : ∀ h ∈ m.initialized, ∃ x, m.executorMap.lookup h.name = some x ∧ x.toHandle = h
  sound : ∀ n x, m.executorMap.lookup n = some x → x.Sound

theorem registered_empty : Registered ({} : ExecutorManager Node) := by
  refine ⟨rfl, List.nodup_nil, fun n => ?_, rfl, ?_, ?_⟩
  · simp [AList.notMem_empty]
  · simp
  · simp

/-- The registry does not depend on the other members. -/
theorem Registered.of_eq (h : Registered m) (hnames : t.usedExecutorNames = m.usedExecutorNames)
    (hmap : t.executorMap = m.executorMap) (hinit : t.initialized = m.initialized) :
    Registered t := by
  obtain ⟨o, st, names, map, init, downs⟩ := t
  obtain rfl := hnames
  obtain rfl := hmap
  obtain rfl := hinit
  exact ⟨h.names, h.nodup, h.keys, h.ids, h.owned, h.sound⟩

/-- A name in use is found in the map. -/
theorem Registered.lookup (h : Registered m) (hn : name ∈ m.usedExecutorNames) :
    ∃ x, m.executorMap.lookup name = some x :=
  Option.isSome_iff_exists.mp (AList.lookup_isSome.mpr ((h.keys name).mpr hn))

theorem Registered.nodup_initialized (h : Registered m) : m.initialized.Nodup := by
  have hids : (m.initialized.map Handle.id).Nodup := h.ids ▸ List.nodup_range
  exact hids.of_map

/-- An executor of the map is replaced by itself after a call. -/
theorem Registered.update (h : Registered m) (hx : m.executorMap.lookup name = some x)
    (hy : y.toHandle = x.toHandle) (hsound : y.Sound) : Registered (m.update name y) := by
  refine ⟨h.names, h.nodup, fun n => ?_, h.ids, fun k hk => ?_, fun n z hz => ?_⟩
  · have hname : name ∈ m.executorMap := AList.lookup_isSome.mp (by rw [hx]; rfl)
    rw [ExecutorManager.update, AList.mem_insert, ← h.keys n]
    exact ⟨fun hn => hn.elim (fun heq => heq ▸ hname) id, Or.inr⟩
  · obtain ⟨z, hz, hhandle⟩ := h.owned k hk
    by_cases heq : k.name = name
    · obtain rfl : z = x := Option.some.inj (by rw [← hz, heq, hx])
      exact ⟨y, by rw [ExecutorManager.update, heq, AList.lookup_insert], hy.trans hhandle⟩
    · exact ⟨z, by rw [ExecutorManager.update, AList.lookup_insert_ne heq, hz], hhandle⟩
  · rcases lookup_insert_eq_some hz with ⟨-, rfl⟩ | ⟨-, hz⟩
    · exact hsound
    · exact h.sound n z hz

/-- A new executor under a new name. -/
theorem Registered.register (h : Registered m) (hname : name ∉ m.executorMap)
    (hx : x.name = name) (hid : x.id = m.initialized.length) (hsound : x.Sound) :
    Registered { m.record name x with executorMap := m.executorMap.insert name x } := by
  have hnew : name ∉ m.usedExecutorNames := fun hn => hname ((h.keys name).mpr hn)
  refine ⟨?_, ?_, fun n => ?_, ?_, ?_, fun n z hz => ?_⟩
  · simp [record, h.names, hx]
  · exact List.nodup_append.mpr ⟨h.nodup, List.nodup_singleton name, by
      rintro a ha b hb rfl
      exact hnew (List.mem_singleton.mp hb ▸ ha)⟩
  · simp only [record, AList.mem_insert, List.mem_append, List.mem_singleton, h.keys n, or_comm]
  · simp [record, h.ids, hid, List.range_succ]
  · intro k hk
    rcases List.mem_append.mp hk with hk | hk
    · obtain ⟨z, hz, hhandle⟩ := h.owned k hk
      have hne : k.name ≠ name := by
        rintro rfl
        exact hname (AList.lookup_isSome.mp (by rw [hz]; rfl))
      exact ⟨z, by rw [AList.lookup_insert_ne hne, hz], hhandle⟩
    · obtain rfl := List.mem_singleton.mp hk
      exact ⟨x, by rw [hx, AList.lookup_insert], rfl⟩
  · rcases lookup_insert_eq_some hz with ⟨-, rfl⟩ | ⟨-, hz⟩
    · exact hsound
    · exact h.sound n z hz

/-! ## `Initialize` -/

/-- `t` is `m` with one more executor. -/
structure Adds (m : ExecutorManager Node) (label : ExecutorType × String)
    (t : ExecutorManager Node) : Prop where
  registered : Registered t
  state : t.state = m.state
  options : t.options = m.options
  shutdowns : t.shutdowns = m.shutdowns
  labels_eq : t.initialized.map Handle.label = m.initialized.map Handle.label ++ [label]

theorem Registered.names_eq (h : Registered m) :
    m.usedExecutorNames = (m.initialized.map Handle.label).map Prod.snd := by
  rw [h.names, List.map_map]
  rfl

/-- What `emplace` does with an executor just recorded: it is registered, unless it is a guard
thread executor whose name is taken. -/
theorem emplace_post (h : Registered m) (hx : x.name = name) (hid : x.id = m.initialized.length)
    (hsound : x.Sound) (hthread : name ∈ m.executorMap → x.thread) :
    ((m.record name x).emplace name x).Post (Adds m (x.type, name)) (fun _ => False)
      (name ∈ m.executorMap) := by
  unfold emplace
  by_cases hname : name ∈ m.executorMap
  · -- the discarded executor holds a thread, so its destructor ends the program
    rw [if_pos (by exact hname), Executor.destroyed, if_pos (hthread hname)]
    exact hname
  · rw [if_neg (by exact hname)]
    exact ⟨h.register hname hx hid hsound, rfl, rfl, rfl, by simp [record, Handle.label, hx]⟩

theorem add_post {type : ExecutorType} {options : Option Node} (h : Registered m)
    (hstate : m.state = .init) (hname : name ∈ m.executorMap → type = .guardThread) :
    (m.add faults type name options).Post
      (fun t => Adds m (type, name) t ∧ faults type name options = none)
      (fun t => t = m ∧ faults type name options ≠ none) (name ∈ m.executorMap) := by
  have hinit : ((m.newExecutor type).initializeWith name (faults type name options)).Post _ _ _ :=
    Executor.initializeWith_post rfl rfl
  unfold add
  rw [if_pos hstate]
  cases hcall : (m.newExecutor type).initializeWith name (faults type name options) with
  | returns x =>
    obtain ⟨hx, hfault⟩ := hinit.of_returns hcall
    have hsound : x.Sound := by
      constructor
      · simp [hx]
      · intro htype _
        simp only [hx, newExecutor] at htype ⊢
        simp [htype]
    have hthread : name ∈ m.executorMap → x.thread := by
      intro hn
      simp [hx, newExecutor, hname hn]
    have htype : x.type = type := by rw [hx, newExecutor]
    rw [← htype] at hfault ⊢
    exact (emplace_post h (by rw [hx]) (by rw [hx, newExecutor]) hsound hthread).imp
      (fun t ht => ⟨ht, hfault⟩) (fun _ => False.elim) id
  | throws x what =>
    -- the executor is destroyed on the way out and has no thread yet
    rw [hcall] at hinit
    obtain ⟨hthread, hfault⟩ := hinit
    simp [Executor.destroyed, hthread, hfault]
  | terminates =>
    rw [hcall] at hinit
    exact hinit.elim

/-- What the second pass has done when the entries `done` of the list `l` are behind it. -/
structure Listed (faults : InitializeFaults Node) (c : OptionsCheck Node)
    (l done : List (ExecutorOptions Node)) (m : ExecutorManager Node) : Prop where
  registered : Registered m
  state : m.state = .init
  options : m.options = l
  shutdowns : m.shutdowns = []
  labels_eq : m.initialized.map Handle.label = labels c done
  types : ∀ o ∈ done, o.type = "main_thread" ∨ o.type = "guard_thread" ∨ o.type = "time_wheel"
  runs : ∀ o ∈ timeWheels done, faults .timeWheel o.name o.options = none

/-- An `Initialize` that has thrown leaves a consistent registry, and the node was not
acceptable. -/
structure Rejects (faults : InitializeFaults Node) (node : OptionsNode Node)
    (m : ExecutorManager Node) : Prop where
  registered : Registered m
  state : m.state = .init
  shutdowns : m.shutdowns = []
  not_accepts : ∀ c, ¬ Accepts faults node c

/-- An executor is added, or `Initialize` throws for a node that is not acceptable. -/
theorem add_post_rejects {node : OptionsNode Node} {type : ExecutorType} {options : Option Node}
    (h : Registered m) (hstate : m.state = .init) (hdowns : m.shutdowns = [])
    (hname : name ∈ m.executorMap → type = .guardThread)
    (hnot : faults type name options ≠ none → ∀ c, ¬ Accepts faults node c) :
    (m.add faults type name options).Post
      (fun t => Adds m (type, name) t ∧ faults type name options = none)
      (Rejects faults node) (name ∈ m.executorMap) := by
  refine (add_post h hstate hname).imp (fun t ht => ht) ?_ id
  rintro t ⟨rfl, hfault⟩
  exact ⟨h, hstate, hdowns, hnot hfault⟩

variable {node : OptionsNode Node} {l done rest : List (ExecutorOptions Node)}
  {o : ExecutorOptions Node}

theorem Listed.mem_map_iff (h : Listed faults c l done m) :
    name ∈ m.executorMap ↔ name ∈ (labels c done).map Prod.snd := by
  rw [h.registered.keys, h.registered.names_eq, h.labels_eq]

theorem Listed.rejects (h : Listed faults c l done m) (hnot : ∀ c, ¬ Accepts faults node c) :
    Rejects faults node m :=
  ⟨h.registered, h.state, h.shutdowns, hnot⟩

/-- An entry of another type is passed over. -/
theorem Listed.skip (h : Listed faults c l done m)
    (ho : o.type = "main_thread" ∨ o.type = "guard_thread") :
    Listed faults c l (done ++ [o]) m := by
  have hne : o.type ≠ "time_wheel" := by
    rcases ho with ho | ho <;> simp [ho]
  have hwheels : timeWheels (done ++ [o]) = timeWheels done := by
    rw [timeWheels_append, timeWheels_cons_of_ne hne, timeWheels_nil, List.append_nil]
  refine ⟨h.registered, h.state, h.options, h.shutdowns, ?_, ?_, ?_⟩
  · rw [h.labels_eq, labels, labels, hwheels]
  · exact List.forall_mem_append.mpr
      ⟨h.types, List.forall_mem_singleton.mpr (ho.imp_right Or.inl)⟩
  · rw [hwheels]
    exact h.runs

/-- A time wheel executor is added for its entry. -/
theorem Listed.add (h : Listed faults c l done m) (ho : o.type = "time_wheel")
    (ht : Adds m (.timeWheel, o.name) t) (hfault : faults .timeWheel o.name o.options = none) :
    Listed faults c l (done ++ [o]) t := by
  have hwheels : timeWheels (done ++ [o]) = timeWheels done ++ [o] := by
    rw [timeWheels_append, timeWheels_cons_of_eq ho, timeWheels_nil]
  refine ⟨ht.registered, ht.state.trans h.state, ht.options.trans h.options,
    ht.shutdowns.trans h.shutdowns, ?_, ?_, ?_⟩
  · rw [ht.labels_eq, h.labels_eq, labels_append, timeWheels_cons_of_eq ho]
    rfl
  · exact List.forall_mem_append.mpr
      ⟨h.types, List.forall_mem_singleton.mpr (Or.inr (Or.inr ho))⟩
  · rw [hwheels]
    exact List.forall_mem_append.mpr ⟨h.runs, List.forall_mem_singleton.mpr hfault⟩

/-- One entry of the second pass. It throws only if the list is not acceptable. -/
theorem addListed_post (hc : checkOptions node.executorsOptions = .ok c)
    (hl : node.executorsOptions = done ++ o :: rest)
    (h : Listed faults c node.executorsOptions done m) :
    (addListed faults o m).Post (Listed faults c node.executorsOptions (done ++ [o]))
      (Rejects faults node) False := by
  have hmem : o ∈ node.executorsOptions := by simp [hl]
  have hsame : ∀ c', Accepts faults node c' → c' = c := fun c' h' =>
    Except.ok.inj (h'.placed.symm.trans hc)
  unfold addListed
  by_cases hmain : o.type = "main_thread"
  · rw [if_pos hmain]
    exact h.skip (Or.inl hmain)
  rw [if_neg hmain]
  by_cases hguard : o.type = "guard_thread"
  · rw [if_pos hguard]
    exact h.skip (Or.inr hguard)
  rw [if_neg hguard]
  have htype : ∀ c', Accepts faults node c' → o.type = "time_wheel" := fun c' h' =>
    ((h'.types o hmem).resolve_left hmain).resolve_left hguard
  by_cases hname : o.name ∈ m.executorMap
  · rw [if_pos hname]
    refine h.rejects fun c' h' => ?_
    obtain rfl := hsame c' h'
    exact h'.not_mem_labels hl (htype c' h') (h.mem_map_iff.mp hname)
  rw [if_neg hname]
  by_cases hwheel : o.type = "time_wheel"
  · rw [if_pos hwheel]
    have hfault : faults .timeWheel o.name o.options ≠ none → ∀ c', ¬ Accepts faults node c' :=
      fun hne c' h' => hne (h'.timeWheels o (by simp [timeWheels, hmem, hwheel]))
    exact (add_post_rejects h.registered h.state h.shutdowns (fun hn => absurd hn hname)
      hfault).imp (fun t ht => h.add hwheel ht.1 ht.2) (fun t ht => ht) hname
  · rw [if_neg hwheel]
    exact h.rejects fun c' h' => hwheel (htype c' h')

/-- An `Initialize` that has returned: the node is acceptable, and there is an executor for each of
its entries. -/
def Completed (faults : InitializeFaults Node) (node : OptionsNode Node)
    (m : ExecutorManager Node) : Prop :=
  ∃ c, Accepts faults node c ∧ Listed faults c node.executorsOptions node.executorsOptions m

/-- The list gives the main thread and the guard thread executor one name. -/
def SharesName (l : List (ExecutorOptions Node)) : Prop :=
  ∃ c, checkOptions l = .ok c ∧ c.mainThreadName = c.guardThreadName

/-- What has been found out when the first pass and both single creations are behind. -/
theorem Listed.completed (hdec : ∀ what, node ≠ .throws what)
    (hc : checkOptions node.executorsOptions = .ok c)
    (hmain : faults .mainThread c.mainThreadName c.mainThreadOptions = none)
    (hguard : faults .guardThread c.guardThreadName c.guardThreadOptions = none)
    (h : Listed faults c node.executorsOptions node.executorsOptions m) :
    Completed faults node m := by
  refine ⟨c, ⟨hdec, hc, h.types, ?_, hmain, hguard, h.runs⟩, h⟩
  rw [← h.labels_eq, ← h.registered.names_eq]
  exact h.registered.nodup

/-- The two passes, and the executors of the main and of the guard thread between them: the only
name in use when the latter is added is that of the former. -/
theorem createExecutors_post (hdec : ∀ what, node ≠ .throws what)
    (hm : Registered m) (hstate : m.state = .init) (hoptions : m.options = node.executorsOptions)
    (hdowns : m.shutdowns = []) (hinit : m.initialized = []) :
    (createExecutors faults m).Post (Completed faults node) (Rejects faults node)
      (SharesName node.executorsOptions) := by
  have hempty : ∀ n, n ∉ m.executorMap := fun n hn => by
    simpa [hm.names, hinit] using (hm.keys n).mp hn
  unfold createExecutors
  rw [hoptions]
  cases hc : checkOptions node.executorsOptions with
  | error what =>
    refine ⟨hm, hstate, hdowns, fun c h => ?_⟩
    have hplaced := h.placed
    rw [hc] at hplaced
    cases hplaced
  | ok c =>
    have hsame : ∀ c', Accepts faults node c' → c' = c := fun c' h' =>
      Except.ok.inj (h'.placed.symm.trans hc)
    have hmain_fault : faults .mainThread c.mainThreadName c.mainThreadOptions ≠ none →
        ∀ c', ¬ Accepts faults node c' := by
      intro hne c' h'
      obtain rfl := hsame c' h'
      exact hne h'.mainThread
    have hguard_fault : faults .guardThread c.guardThreadName c.guardThreadOptions ≠ none →
        ∀ c', ¬ Accepts faults node c' := by
      intro hne c' h'
      obtain rfl := hsame c' h'
      exact hne h'.guardThread
    refine ((add_post_rejects hm hstate hdowns (fun hn => absurd hn (hempty _)) hmain_fault).imp
      (fun t ht => ht) (fun t ht => ht) fun hn => absurd hn (hempty _)).andThen ?_
    rintro m₁ ⟨hm₁, hmain⟩
    have hstate₁ : m₁.state = .init := hm₁.state.trans hstate
    have hdowns₁ : m₁.shutdowns = [] := hm₁.shutdowns.trans hdowns
    have hshares : c.guardThreadName ∈ m₁.executorMap → SharesName node.executorsOptions := by
      intro hn
      rw [hm₁.registered.keys, hm₁.registered.names_eq, hm₁.labels_eq, hinit] at hn
      exact ⟨c, hc, (List.mem_singleton.mp hn).symm⟩
    refine ((add_post_rejects hm₁.registered hstate₁ hdowns₁ (fun _ => rfl) hguard_fault).imp
      (fun t ht => ht) (fun t ht => ht) hshares).andThen ?_
    rintro m₂ ⟨hm₂, hguard⟩
    have hoptions₂ : m₂.options = node.executorsOptions :=
      hm₂.options.trans (hm₁.options.trans hoptions)
    rw [hoptions₂]
    have hlisted : Listed faults c node.executorsOptions [] m₂ := by
      refine ⟨hm₂.registered, hm₂.state.trans hstate₁, hoptions₂,
        hm₂.shutdowns.trans hdowns₁, ?_, by simp, by simp⟩
      rw [hm₂.labels_eq, hm₁.labels_eq, hinit]
      rfl
    exact (Call.post_forEach (fun done o rest s hl hs => addListed_post hc hl hs) hlisted).imp
      (fun t ht => ht.completed hdec hc hmain hguard) (fun t ht => ht) False.elim

/-- **How the first `Initialize` ends.** It returns only for an acceptable node, with an executor
for each entry; it throws only for one that is not, with a consistent registry; and it terminates
the program only if the main thread and the guard thread executor share a name. -/
theorem initializeWith_post : (initializeWith node faults {}).Post (Completed faults node)
    (Rejects faults node) (SharesName node.executorsOptions) := by
  unfold initializeWith
  rw [if_pos rfl]
  cases node with
  | null =>
    exact createExecutors_post (by simp) (registered_empty.of_eq rfl rfl rfl) rfl rfl rfl rfl
  | throws what =>
    exact ⟨registered_empty.of_eq rfl rfl rfl, rfl, rfl, fun c h => h.decodes what rfl⟩
  | decodes l =>
    exact createExecutors_post (by simp) (registered_empty.of_eq rfl rfl rfl) rfl rfl rfl rfl

/-- The first `Initialize` returns exactly for the acceptable nodes. -/
theorem exists_returns_iff :
    (∃ t, initializeWith node faults {} = .returns t) ↔ ∃ c, Accepts faults node c := by
  constructor
  · rintro ⟨t, ht⟩
    obtain ⟨c, hc, -⟩ := initializeWith_post.of_returns ht
    exact ⟨c, hc⟩
  · rintro ⟨c, hc⟩
    have hdiffer : ¬ SharesName node.executorsOptions := by
      rintro ⟨c', hc', heq⟩
      obtain rfl : c' = c := Except.ok.inj (hc'.symm.trans hc.placed)
      have hnames := hc.names
      simp [labels, heq] at hnames
    exact (initializeWith_post.imp (fun _ ht => ht) (fun t ht => ht.not_accepts c hc)
      hdiffer).exists_returns.imp fun t ht => ht.1

/-- Every later `Initialize` throws, and has written the state. -/
theorem initializeWith_again (h : m.state ≠ .preInit) :
    m.initializeWith node faults =
      .throws { m with state := .init } "ExecutorManager can only be initialized once." := by
  unfold initializeWith
  rw [if_neg h]

/-! ## `Start` and `Shutdown` -/

/-- `t` has the executors of `m`, in whatever states. -/
structure SameExecutors (m t : ExecutorManager Node) : Prop where
  registered : Registered t
  options : t.options = m.options
  initialized : t.initialized = m.initialized

/-- The executor of the name is in the map and has been started. -/
def Started (m : ExecutorManager Node) (name : String) : Prop :=
  ∃ x, m.executorMap.lookup name = some x ∧ x.state = .start

theorem SameExecutors.refl (h : Registered m) : SameExecutors m m := ⟨h, rfl, rfl⟩

theorem SameExecutors.withState {state : State} (h : Registered m) :
    SameExecutors m { m with state := state } := ⟨h.of_eq rfl rfl rfl, rfl, rfl⟩

theorem SameExecutors.usedExecutorNames (h : SameExecutors m t) (hm : Registered m) :
    t.usedExecutorNames = m.usedExecutorNames := by
  rw [h.registered.names, hm.names, h.initialized]

theorem SameExecutors.update (h : SameExecutors m t) (hx : t.executorMap.lookup name = some x)
    (hy : y.toHandle = x.toHandle) (hsound : y.Sound) : SameExecutors m (t.update name y) :=
  ⟨h.registered.update hx hy hsound, h.options, h.initialized⟩

theorem Started.update (hy : y.state = .start) {n : String} (h : Started m n ∨ n = name) :
    Started (m.update name y) n := by
  by_cases heq : n = name
  · exact ⟨y, by rw [ExecutorManager.update, heq, AList.lookup_insert], hy⟩
  · obtain ⟨x, hx, hstate⟩ := h.resolve_right heq
    exact ⟨x, by rw [ExecutorManager.update, AList.lookup_insert_ne heq, hx], hstate⟩

/-- **How `Start` ends.** It keeps the executors, it does not terminate the program, and it returns
only from `kInit`, with every executor started. -/
theorem start_post {faults : StartFaults} (h : Registered m) :
    (m.start faults).Post
      (fun t => SameExecutors m t ∧ t.state = .start ∧ t.shutdowns = m.shutdowns ∧
        m.state = .init ∧ ∀ n ∈ m.usedExecutorNames, Started t n)
      (fun t => SameExecutors m t ∧ t.state = .start ∧ t.shutdowns = m.shutdowns) False := by
  unfold start
  by_cases hstate : m.state = .init
  · rw [if_pos hstate]
    refine (Call.post_forEach (I := fun done t => SameExecutors m t ∧ t.state = .start ∧
      t.shutdowns = m.shutdowns ∧ ∀ n ∈ done, Started t n)
      (E := fun t => SameExecutors m t ∧ t.state = .start ∧ t.shutdowns = m.shutdowns) (T := False)
      ?_ ⟨.withState h, rfl, rfl, by simp⟩).imp
      (fun t ht => ⟨ht.1, ht.2.1, ht.2.2.1, hstate, ht.2.2.2⟩) (fun t ht => ht) id
    rintro done n rest t hl ⟨hsame, ht, hdowns, hstarted⟩
    have hmem : n ∈ t.usedExecutorNames := by
      rw [hsame.usedExecutorNames h, hl]
      simp
    obtain ⟨x, hx⟩ := hsame.registered.lookup hmem
    have hsound := hsame.registered.sound n x hx
    unfold startExecutor
    rw [hx]
    refine (Executor.start_post hsound).map ?_ ?_
    · rintro y ⟨hhandle, hy, -⟩
      refine ⟨hsame.update hx hhandle (Executor.sound_of_start hy), ht, hdowns, fun k hk => ?_⟩
      exact Started.update hy ((List.mem_append.mp hk).imp (hstarted k) List.mem_singleton.mp)
    · rintro y ⟨hhandle, hy⟩
      exact ⟨hsame.update hx hhandle (Executor.sound_of_start hy), ht, hdowns⟩
  · rw [if_neg hstate]
    exact ⟨.withState h, rfl, rfl⟩

/-- No executor of the map holds a thread. -/
def Joined (m : ExecutorManager Node) (n : String) : Prop :=
  ∀ x, m.executorMap.lookup n = some x → x.thread = false

/-- **How `Shutdown` ends.** It returns: every executor is found in the map. The first one calls
`Shutdown` of each executor, in the reverse order of their initialization. -/
theorem shutdown_post (h : Registered m) (hstate : m.state ≠ .shutdown) :
    m.shutdown.Post
      (fun t => SameExecutors m t ∧ t.state = .shutdown ∧
        t.shutdowns = m.shutdowns ++ m.initialized.reverse ∧ ∀ n, Joined t n)
      (fun _ => False) False := by
  have hnames : m.usedExecutorNames.reverse = m.initialized.reverse.map Handle.name := by
    rw [h.names, List.map_reverse]
  unfold shutdown
  rw [if_neg hstate, hnames, Call.forEach_map]
  refine (Call.post_forEach (I := fun done t => SameExecutors m t ∧ t.state = .shutdown ∧
    t.shutdowns = m.shutdowns ++ done ∧ ∀ k ∈ done, Joined t k.name)
    (E := fun _ => False) (T := False) ?_ ⟨.withState h, rfl, by simp, by simp⟩).imp
    ?_ (fun t ht => ht) id
  · rintro done k rest t hl ⟨hsame, ht, hdowns, hjoined⟩
    have hmem : k ∈ t.initialized := by
      rw [hsame.initialized, ← List.mem_reverse, hl]
      simp
    obtain ⟨x, hx, hhandle⟩ := hsame.registered.owned k hmem
    have hsound := hsame.registered.sound k.name x hx
    unfold shutdownExecutor
    rw [hx]
    have hupdate := hsame.update hx Executor.shutdown_toHandle hsound.shutdown
    refine ⟨⟨hupdate.registered.of_eq rfl rfl rfl, hupdate.options, hupdate.initialized⟩, ht,
      ?_, ?_⟩
    · rw [hdowns, hhandle, List.append_assoc]
    · intro j hj z hz
      rcases lookup_insert_eq_some hz with ⟨-, rfl⟩ | ⟨hne, hz⟩
      · exact hsound.shutdown_thread
      · refine hjoined j ((List.mem_append.mp hj).resolve_right fun hj => hne ?_) z hz
        rw [List.mem_singleton.mp hj]
  · rintro t ⟨hsame, ht, hdowns, hjoined⟩
    refine ⟨hsame, ht, hdowns, fun n x hx => ?_⟩
    have hn : n ∈ t.usedExecutorNames :=
      (hsame.registered.keys n).mp (AList.lookup_isSome.mp (by rw [hx]; rfl))
    rw [hsame.registered.names, hsame.initialized] at hn
    obtain ⟨k, hk, rfl⟩ := List.mem_map.mp hn
    exact hjoined k (List.mem_reverse.mpr hk) x hx

/-- `Shutdown` once more does nothing. -/
theorem shutdown_again (h : m.state = .shutdown) : m.shutdown = .returns m := by
  rw [shutdown, if_pos h]

/-! ## Runs of calls -/

/-- The registry is consistent, and a manager that no call has been made on is as it was built. -/
structure Kept (m : ExecutorManager Node) : Prop where
  registered : Registered m
  fresh : m.state = .preInit → m = {}

theorem kept_empty : Kept ({} : ExecutorManager Node) := ⟨registered_empty, fun _ => rfl⟩

theorem Kept.call_post (h : Kept m) (a : Act Node) :
    (m.call a).Post (fun t => Registered t ∧ t.state ≠ .preInit)
      (fun t => Registered t ∧ t.state ≠ .preInit) True := by
  cases a with
  | initializeWith node faults =>
    by_cases hstate : m.state = .preInit
    · obtain rfl := h.fresh hstate
      refine initializeWith_post.imp ?_ ?_ fun _ => trivial
      · rintro t ⟨c, -, ht⟩
        exact ⟨ht.registered, by simp [ht.state]⟩
      · intro t ht
        exact ⟨ht.registered, by simp [ht.state]⟩
    · rw [call, initializeWith_again hstate]
      exact ⟨h.registered.of_eq rfl rfl rfl, by simp⟩
  | start faults =>
    refine (start_post h.registered).imp ?_ ?_ fun _ => trivial
    · rintro t ⟨hsame, ht, -⟩
      exact ⟨hsame.registered, by simp [ht]⟩
    · rintro t ⟨hsame, ht, -⟩
      exact ⟨hsame.registered, by simp [ht]⟩
  | shutdown =>
    by_cases hstate : m.state = .shutdown
    · rw [call, shutdown_again hstate]
      exact ⟨h.registered, by simp [hstate]⟩
    · refine (shutdown_post h.registered hstate).imp ?_ (fun _ => False.elim) fun _ => trivial
      rintro t ⟨hsame, ht, -⟩
      exact ⟨hsame.registered, by simp [ht]⟩

/-- No call leads back to `kPreInit`. -/
theorem Kept.state_ne_preInit (h : Kept m) {a : Act Node} (hs : step m a = some t) :
    t.state ≠ .preInit := ((h.call_post a).of_after hs).2

theorem Kept.step (h : Kept m) {a : Act Node} (hs : step m a = some t) : Kept t :=
  ⟨((h.call_post a).of_after hs).1, fun ht => absurd ht (h.state_ne_preInit hs)⟩

/-- The registry is consistent after every run. -/
theorem kept_run {es : List (Act Node)} (hr : run step {} es = some m) : Kept m :=
  run_invariant (fun _ _ _ h hs => h.step hs) kept_empty hr

/-- Only the first call of all can be an `Initialize` that returns. -/
theorem Kept.completed (h : Kept m) (ht : m.initializeWith node faults = .returns t) :
    m = {} ∧ Completed faults node t := by
  have hstate : m.state = .preInit := by
    by_contra hne
    rw [initializeWith_again hne] at ht
    cases ht
  obtain rfl := h.fresh hstate
  exact ⟨rfl, initializeWith_post.of_returns ht⟩

/-- **Successful initialization.** When `Initialize` returns, the names in use are pairwise distinct
and are the keys of the map, every executor that has been initialized is owned by the map under its
own name, and the executors are the main thread executor, the guard thread executor and the time
wheel executors in the order of the list. -/
theorem initialize_registers {es : List (Act Node)} (hr : run step {} es = some m)
    (ht : m.initializeWith node faults = .returns t) :
    t.usedExecutorNames.Nodup ∧ (∀ n, n ∈ t.executorMap ↔ n ∈ t.usedExecutorNames) ∧
      t.initialized.Nodup ∧
      (∀ h ∈ t.initialized, ∃ x, t.executorMap.lookup h.name = some x ∧ x.toHandle = h) ∧
      ∃ c, checkOptions node.executorsOptions = .ok c ∧
        t.initialized.map Handle.label = labels c node.executorsOptions ∧
        t.usedExecutorNames = (labels c node.executorsOptions).map Prod.snd := by
  obtain ⟨-, c, hc, hlisted⟩ := (kept_run hr).completed ht
  have hreg := hlisted.registered
  refine ⟨hreg.nodup, hreg.keys, hreg.nodup_initialized, hreg.owned, c, hc.placed,
    hlisted.labels_eq, ?_⟩
  rw [hreg.names_eq, hlisted.labels_eq]

theorem initialize_registers_wheel :
    ∃ t : ExecutorManager Unit,
      initializeWith (.decodes [⟨"guard", "guard_thread", none⟩, ⟨"timer", "time_wheel", none⟩])
        (fun _ _ _ => none) {} = .returns t ∧
      t.usedExecutorNames = ["nxpilot_main", "guard", "timer"] ∧ t.usedExecutorNames.Nodup ∧
      ∀ n, n ∈ t.executorMap ↔ n ∈ t.usedExecutorNames := by
  have hr : run step ({} : ExecutorManager Unit) [] = some {} := rfl
  have ht : initializeWith
      (.decodes [⟨"guard", "guard_thread", none⟩, ⟨"timer", "time_wheel", none⟩])
      (fun _ _ _ => none) ({} : ExecutorManager Unit) = .returns _ := rfl
  have h := initialize_registers hr ht
  exact ⟨_, ht, rfl, h.1, h.2.1⟩

end ExecutorManager

end Ados.Core
