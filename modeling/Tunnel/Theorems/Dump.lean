import Tunnel.Dump
import Tunnel.Lemmas.Calls

/-!
# What draw.py reads of a dump

A line of a dump is its fields with a blank between them, and it ends at the first line end (`dumpNode_eq`,
`splitOn_row`). Names in UTF-8 make the file UTF-8 (`dump_eq`). So the script reads every line as `Dump` wrote it when
moreover the names hold neither blanks nor line ends, and each line adds its node to what it has read (`Shows.insert`,
`readNodes_rows`). In the other direction, whatever the script reads, the names it finds are texts that hold neither
(`read_plain`).
-/

namespace Tunnel

open Lib

variable {V : Type}

/-- A text without a blank and without a line end. -/
structure PlainText (t : Text) : Prop where
  blank : ' ' ∉ t
  newline : '\n' ∉ t
  carriageReturn : '\r' ∉ t

/-- Part of a plain text is plain. -/
theorem PlainText.mono {t t' : Text} (h : PlainText t) (hsub : ∀ c ∈ t', c ∈ t) : PlainText t' :=
  ⟨fun hc => h.blank (hsub _ hc), fun hc => h.newline (hsub _ hc), fun hc => h.carriageReturn (hsub _ hc)⟩

/-- A name in UTF-8 without a blank and without a line end. -/
def PlainName (name : Name) : Prop := ∃ t, PlainText t ∧ utf8 t = name

/-- The name of the pipeline and those of its processors are plain. -/
structure Pipeline.PlainNames (p : Pipeline V) : Prop where
  pipeline : PlainName p.option.name
  processor : ∀ u n, p.nodes.get u = some n → PlainName n.name

/-- The names of the pipeline are the bytes of these plain texts. -/
structure Pipeline.Spelled (p : Pipeline V) (title : Text) (names : Id → Text) : Prop where
  title_plain : PlainText title
  title_eq : utf8 title = p.option.name
  plain : ∀ u ∈ p.nodes.keys, PlainText (names u)
  name_eq : ∀ u n, p.nodes.get u = some n → utf8 (names u) = n.name

/-- Plain names can be spelled. -/
theorem Pipeline.PlainNames.spelled {p : Pipeline V} (h : p.PlainNames) : ∃ title names, p.Spelled title names := by
  obtain ⟨title, htitle, htitleEq⟩ := h.pipeline
  have hnames : ∀ u, ∃ t, u ∈ p.nodes.keys → PlainText t ∧ ∀ n, p.nodes.get u = some n → utf8 t = n.name := by
    intro u
    cases hn : p.nodes.get u with
    | none =>
      refine ⟨[], fun hu => ?_⟩
      obtain ⟨n, hn'⟩ := (p.nodes.mem_keys_iff u).1 hu
      rw [hn] at hn'
      cases hn'
    | some n =>
      obtain ⟨t, ht, hname⟩ := h.processor u n hn
      exact ⟨t, fun _ => ⟨ht, fun m hm => Option.some.inj hm ▸ hname⟩⟩
  choose names hnames using hnames
  exact ⟨title, names, htitle, htitleEq, fun u hu => (hnames u hu).1,
    fun u n hn => (hnames u (PMap.mem_keys_of_get hn)).2 n hn⟩

namespace Drawing

/-- The script has read these nodes of the pipeline and no others, with their names, to the byte, and their successors.
-/
structure Shows (d : Drawing) (p : Pipeline V) (U : Finset Id) : Prop where
  name_keys : d.processorName.keys = U.image decimal
  map_keys : d.processorMap.keys = U.image decimal
  name : ∀ u ∈ U, ∀ n, p.nodes.get u = some n → ∃ t, d.processorName.get (decimal u) = some t ∧ utf8 t = n.name
  posts : ∀ u ∈ U, ∃ posts, d.processorMap.get (decimal u) = some posts ∧ posts.Nodup ∧
    posts.toFinset = (p.succs u).image decimal

/-- The script has read the name of the pipeline and all its nodes. -/
structure Recovers (d : Drawing) (p : Pipeline V) : Prop extends d.Shows p p.nodes.keys where
  pipelineName : utf8 d.pipelineName = p.option.name

/-! ## The line of a node -/

/-- The line of a node without its end. -/
def row (id : Id) (name : Text) (edges : List Id) : Text :=
  decimal id ++ ' ' :: ('(' :: (name ++ [')']) ++ ' ' :: ([':'] ++ ' ' :: edges.flatMap (fun v => decimal v ++ [' '])))

/-- `Dump` writes the row of a node. -/
theorem dumpNode_eq (id : Id) (name : Text) (edges : Option (List Id)) :
    dumpNode id (utf8 name) edges = utf8 (row id name (edges.getD []) ++ ['\n']) := by
  have hopen : chars " (" = [' ', '('] := by decide
  have hclose : chars ") : " = [')', ' ', ':', ' '] := by decide
  have hblank : chars " " = [' '] := by decide
  have hend : chars "\n" = ['\n'] := by decide
  cases edges with
  | none =>
    simp only [dumpNode, ← utf8_append, hopen, hclose, hend]
    simp [row]
  | some edges =>
    simp only [dumpNode, ← utf8_append, ← utf8_flatMap, hopen, hclose, hblank, hend]
    simp [row]

variable {name title : Text} {c : Char} {d : Drawing} {p : Pipeline V} {names : Id → Text}

/-- The words of the line of a node. -/
theorem splitOn_row (h : ' ' ∉ name) (id : Id) (edges : List Id) :
    (row id name edges).splitOn ' ' = decimal id :: ('(' :: (name ++ [')'])) :: [':'] :: (edges.map decimal ++
      [[]]) := by
  have hdecimal : ∀ n, ' ' ∉ decimal n := notMem_decimal (by decide)
  have hname : ' ' ∉ '(' :: (name ++ [')']) := by simp [h]
  have hcolon : ' ' ∉ [':'] := by simp
  rw [row, List.splitOn_append_cons_self_of_not_mem (hdecimal id), List.splitOn_append_cons_self_of_not_mem hname,
    List.splitOn_append_cons_self_of_not_mem hcolon, splitOn_flatMap hdecimal]

/-- The line holds the digits of numbers, the name and these signs. -/
theorem notMem_row (hdigit : c.isDigit = false) (hsign : c ∉ [' ', '(', ')', ':']) (h : c ∉ name) (id : Id)
    (edges : List Id) : c ∉ row id name edges := by
  have hdecimal : ∀ n, c ∉ decimal n := notMem_decimal hdigit
  simp only [List.mem_cons, List.not_mem_nil, or_false, not_or] at hsign
  simp [row, hdecimal, h, hsign]

@[simp] theorem slice_one (name : Text) (c c' : Char) : slice 1 (c :: (name ++ [c'])) = name := by
  rw [slice, List.drop_one, List.tail_cons, List.dropLast_concat]

@[simp] theorem slice_three (a b c : Text) (l : List Text) :
    slice 3 (a :: b :: c :: (l ++ [[]])) = l := List.dropLast_concat

/-- A node with its name and its successors. -/
def add (d : Drawing) (id : Id) (name : Text) (edges : List Id) : Drawing :=
  { d with
    processorName := d.processorName.assign (decimal id) name
    processorMap := d.processorMap.assign (decimal id) (edges.map decimal) }

/-- The line of a node is read. -/
theorem readNode_row (h : PlainText name) (d : Drawing) (id : Id) (edges : List Id) :
    d.readNode (row id name edges ++ ['\n']) = .ok (d.add id name edges) := by
  have hline : (row id name edges ++ ['\n']).splitOn '\n' = [row id name edges, []] :=
    List.splitOn_append_cons_self_of_not_mem (notMem_row (by decide) (by decide) h.newline id edges) []
  have hfields := splitOn_row h.blank id edges
  unfold readNode
  rw [hline]
  change (item ((row id name edges).splitOn ' ') 0 >>= fun i => item ((row id name edges).splitOn ' ') 1 >>= fun n =>
    _) = _
  rw [hfields]
  change Except.ok _ = _
  rw [slice_one, slice_three]
  rfl

/-- A line adds its node to the nodes read. -/
theorem Shows.insert {U : Finset Id} (h : d.Shows p U) {u : Id} {n : Processor V} (hn : p.nodes.get u = some n)
    {edges : List Id} (hnodup : edges.Nodup) (hedges : edges.toFinset = p.succs u) {t : Text} (ht : utf8 t = n.name) :
    (d.add u t edges).Shows p (insert u U) where
  name_keys := by
    rw [Finset.image_insert, ← h.name_keys]
    rfl
  map_keys := by
    rw [Finset.image_insert, ← h.map_keys]
    rfl
  name v hv m hm := by
    rw [add, PMap.get_assign]
    by_cases hvu : v = u
    · subst hvu
      obtain rfl : n = m := Option.some.inj (hn.symm.trans hm)
      exact ⟨t, if_pos rfl, ht⟩
    · rw [if_neg (fun he => hvu (decimal_injective he))]
      exact h.name v (Finset.mem_of_mem_insert_of_ne hv hvu) m hm
  posts v hv := by
    rw [add, PMap.get_assign]
    by_cases hvu : v = u
    · subst hvu
      refine ⟨edges.map decimal, if_pos rfl, hnodup.map decimal_injective, ?_⟩
      rw [← hedges]
      ext t
      simp
    · rw [if_neg (fun he => hvu (decimal_injective he))]
      exact h.posts v (Finset.mem_of_mem_insert_of_ne hv hvu)

/-! ## All nodes -/

/-- The lines of these nodes. -/
def rows (names : Id → Text) (edges : Id → IdSet) (L : List Id) :
    Text := L.flatMap (fun u => row u (names u) (edges u).elems ++ ['\n'])

/-- The loop of `Dump` writes the lines of the nodes. -/
theorem dumpNodes_eq (hp : p.Spelled title names) (order : DumpOrder p) {L : List Id} (hL : ∀ u ∈ L, u ∈ p.nodes.keys) :
    p.dumpNodes order.edges L = utf8 (rows names order.edges L) := by
  induction L with
  | nil => rfl
  | cons u L ih =>
    obtain ⟨n, hn⟩ := (p.nodes.mem_keys_iff u).1 (hL u List.mem_cons_self)
    have hedges : ((p.dags.get u).map (fun _ => (order.edges u).elems)).getD [] = (order.edges u).elems := by
      cases hdag : p.dags.get u with
      | some s => rfl
      | none =>
        -- without an entry there are no successors to go through
        have hempty : (order.edges u).elems.toFinset = ∅ := by rw [order.edges_eq, Pipeline.succs, hdag]; rfl
        exact ((List.toFinset_eq_empty_iff _).1 hempty).symm
    rw [Pipeline.dumpNodes, hn, ih (fun v hv => hL v (List.mem_cons_of_mem _ hv))]
    dsimp only
    rw [← hp.name_eq u n hn, dumpNode_eq, hedges, ← utf8_append]
    rfl

/-- The loop reads the lines of these nodes one by one. -/
theorem readNodes_rows (hp : p.Spelled title names) (order : DumpOrder p) (rest : Text) (L : List Id) :
    ∀ (d : Drawing) (U : Finset Id), (∀ u ∈ L, u ∈ p.nodes.keys) → d.Shows p U →
      ∃ d', readNodes L.length (rows names order.edges L ++ rest) d = .ok d' ∧ d'.Shows p (U ∪ L.toFinset) ∧
        d'.pipelineName = d.pipelineName := by
  induction L with
  | nil =>
    intro d U _ hd
    refine ⟨d, rfl, ?_, rfl⟩
    rwa [List.toFinset_nil, Finset.union_empty]
  | cons u L ih =>
    intro d U hL hd
    have hu := hL u List.mem_cons_self
    obtain ⟨n, hn⟩ := (p.nodes.mem_keys_iff u).1 hu
    have hname := hp.plain u hu
    have hline : readline (rows names order.edges (u :: L) ++ rest) =
        (row u (names u) (order.edges u).elems ++ ['\n'], rows names order.edges L ++ rest) := by
      rw [rows, List.flatMap_cons, List.append_assoc, List.append_assoc]
      exact readline_append (notMem_row (by decide) (by decide) hname.newline _ _) _
    obtain ⟨d', hread, hshows, hpipeline⟩ := ih (d.add u (names u) (order.edges u).elems) (Insert.insert u U)
      (fun v hv => hL v (List.mem_cons_of_mem _ hv))
      (hd.insert hn (order.edges u).nodup (order.edges_eq u) (hp.name_eq u n hn))
    refine ⟨d', ?_, ?_, hpipeline⟩
    · rw [List.length_cons, readNodes, hline, readNode_row hname]
      exact hread
    · rwa [List.toFinset_cons, Finset.union_insert, ← Finset.insert_union]

/-- The lines hold what a row holds, and their ends. -/
theorem notMem_rows (hdigit : c.isDigit = false) (hsign : c ∉ [' ', '(', ')', ':', '\n']) {L : List Id}
    (h : ∀ u ∈ L, c ∉ names u) (edges : Id → IdSet) : c ∉ rows names edges L := by
  intro hc
  obtain ⟨u, hu, hc⟩ := List.mem_flatMap.1 hc
  rcases List.mem_append.1 hc with hc | hc
  · exact notMem_row hdigit (fun hs => hsign (by simp_all)) (h u hu) u (edges u).elems hc
  · exact hsign (by simp_all)

/-! ## The whole dump -/

/-- The first line without its end. -/
def nameLine (title : Text) : Text := chars "pipeline : " ++ title

/-- The second line without its end. -/
def sizeLine (p : Pipeline V) : Text := chars "node size : " ++ decimal p.getProcessorSize

/-- The line behind the nodes, which the script does not read. -/
def lastLine (p : Pipeline V) : Text :=
  chars "the pipeline is " ++ chars (if p.isCompleted then "completed" else "incompleted") ++ ['\n']

/-- The text of a dump. -/
def dumpText (p : Pipeline V) (title : Text) (names : Id → Text) (order : DumpOrder p) : Text :=
  nameLine title ++ '\n' :: (sizeLine p ++ '\n' :: (rows names order.edges order.nodes.elems ++ lastLine p))

/-- Who is dumped is a node. -/
theorem mem_keys_of_mem_nodes (order : DumpOrder p) {u : Id} (hu : u ∈ order.nodes.elems) : u ∈ p.nodes.keys := by
  rw [← order.nodes_eq]
  exact List.mem_toFinset.2 hu

/-- With names in UTF-8 the whole file is. -/
theorem dump_eq (hp : p.Spelled title names) (order : DumpOrder p) :
    p.dump order = utf8 (dumpText p title names order) := by
  have hend : chars "\n" = ['\n'] := by decide
  rw [Pipeline.dump, dumpNodes_eq hp order (fun u => mem_keys_of_mem_nodes order), ← hp.title_eq, hend]
  simp only [← utf8_append]
  simp [dumpText, nameLine, sizeLine, lastLine]

/-- The words of the first line. -/
theorem splitOn_nameLine (h : ' ' ∉ title) :
    (nameLine title ++ ['\n']).splitOn ' ' = [chars "pipeline", [':'], title ++ ['\n']] := by
  have hwords : nameLine title ++ ['\n'] = chars "pipeline" ++ ' ' :: ([':'] ++ ' ' :: (title ++ ['\n'])) := by
    have hfirst : chars "pipeline : " = chars "pipeline" ++ [' ', ':', ' '] := by decide
    simp [nameLine, hfirst]
  have hname : ' ' ∉ title ++ ['\n'] := by simp [h]
  rw [hwords, List.splitOn_append_cons_self_of_not_mem (by decide),
    List.splitOn_append_cons_self_of_not_mem (by decide), List.splitOn_eq_singleton hname]

/-- The words of the second line. -/
theorem splitOn_sizeLine (p : Pipeline V) :
    (sizeLine p ++ ['\n']).splitOn ' ' = [chars "node", chars "size", [':'], decimal p.getProcessorSize ++ ['\n']] := by
  have hwords : sizeLine p ++ ['\n'] =
      chars "node" ++ ' ' :: (chars "size" ++ ' ' :: ([':'] ++ ' ' :: (decimal p.getProcessorSize ++ ['\n']))) := by
    have hfirst : chars "node size : " = chars "node" ++ ' ' :: (chars "size" ++ [' ', ':', ' ']) := by decide
    simp [sizeLine, hfirst]
  have hsize : ' ' ∉ decimal p.getProcessorSize ++ ['\n'] := by simp [notMem_decimal (c := ' ') (by decide)]
  rw [hwords, List.splitOn_append_cons_self_of_not_mem (by decide),
    List.splitOn_append_cons_self_of_not_mem (by decide), List.splitOn_append_cons_self_of_not_mem (by decide),
    List.splitOn_eq_singleton hsize]

/-- The two lines hold a character of the name or of a number, or one of their own. -/
theorem notMem_nameLine (hfirst : c ∉ chars "pipeline : ") (h : c ∉ title) : c ∉ nameLine title := by
  simp [nameLine, hfirst, h]

/-- What does not stand in the second line. -/
theorem notMem_sizeLine (p : Pipeline V) (hfirst : c ∉ chars "node size : ") (hdigit : c.isDigit = false) :
    c ∉ sizeLine p := by
  simp [sizeLine, hfirst, notMem_decimal hdigit]

/-- The dump has no line end but `\n`, so the script gets it as it is. -/
theorem decode_dump (hp : p.Spelled title names) (order : DumpOrder p) :
    decode (p.dump order) = .ok (dumpText p title names order) := by
  have hname : '\r' ∉ nameLine title := notMem_nameLine (by decide) hp.title_plain.carriageReturn
  have hsize : '\r' ∉ sizeLine p := notMem_sizeLine p (by decide) (by decide)
  have hnodes : '\r' ∉ rows names order.edges order.nodes.elems :=
    notMem_rows (by decide) (by decide) (fun u hu => (hp.plain u (mem_keys_of_mem_nodes order hu)).carriageReturn) _
  have hlast : '\r' ∉ lastLine p := by
    unfold lastLine
    split <;> decide
  have htext : '\r' ∉ dumpText p title names order := by simp [dumpText, hname, hsize, hnodes, hlast]
  rw [decode, dump_eq hp, utf8Decode_utf8]
  exact congrArg Except.ok (universalNewlines_of_notMem htext)

/-- The two lines in front of the nodes. -/
theorem read_eq (hp : p.Spelled title names) (order : DumpOrder p) :
    read (p.dump order) = readNodes p.getProcessorSize (rows names order.edges order.nodes.elems ++ lastLine p)
      { pipelineName := title } := by
  have hfirst : ∀ rest, readline (nameLine title ++ '\n' :: rest) = (nameLine title ++ ['\n'], rest) :=
    readline_append (notMem_nameLine (by decide) hp.title_plain.newline)
  have hsecond : ∀ rest, readline (sizeLine p ++ '\n' :: rest) = (sizeLine p ++ ['\n'], rest) :=
    readline_append (notMem_sizeLine p (by decide) (by decide))
  have hname : (title ++ ['\n']).splitOn '\n' = [title, []] :=
    List.splitOn_append_cons_self_of_not_mem hp.title_plain.newline []
  unfold read
  rw [decode_dump hp]
  simp only [bind, Except.bind, dumpText, hfirst, hsecond, splitOn_nameLine hp.title_plain.blank, splitOn_sizeLine]
  change (item ((title ++ ['\n']).splitOn '\n') 0 >>= fun pipelineName => int (decimal p.getProcessorSize ++ ['\n']) >>=
    fun nodeSize => readNodes nodeSize.toNat _ { pipelineName := pipelineName }) = _
  rw [hname, int, parseInt_decimal]
  rfl

/-- As many lines as nodes. -/
theorem length_nodes (order : DumpOrder p) : order.nodes.elems.length = p.getProcessorSize := by
  rw [Pipeline.getProcessorSize, ← order.nodes_eq, List.toFinset_card_of_nodup order.nodes.nodup]

/-- With plain names the script reads the dump. -/
theorem read_dump (hp : p.PlainNames) (order : DumpOrder p) : ∃ d, read (p.dump order) = .ok d ∧ d.Recovers p := by
  obtain ⟨title, names, hp⟩ := hp.spelled
  have hnone : Shows { pipelineName := title } p ∅ :=
    ⟨rfl, rfl, fun u hu => absurd hu (Finset.notMem_empty u), fun u hu => absurd hu (Finset.notMem_empty u)⟩
  obtain ⟨d, hread, hshows, hname⟩ :=
    readNodes_rows hp order (lastLine p) order.nodes.elems _ ∅ (fun u => mem_keys_of_mem_nodes order) hnone
  rw [Finset.empty_union, order.nodes_eq] at hshows
  refine ⟨d, ?_, hshows, ?_⟩
  · rw [read_eq hp, ← length_nodes order, hread]
  · rw [hname]
    exact hp.title_eq

/-! ## What the script can read at all -/

theorem mem_of_item {α : Type} {xs : List α} {i : Nat} {x : α} (h : item xs i = .ok x) : x ∈ xs := by
  unfold item at h
  split at h
  · rename_i y hy
    cases h
    exact List.mem_of_getElem? hy
  · cases h

theorem mem_of_mem_slice {α : Type} {i : Nat} {xs : List α} {x : α} (h : x ∈ slice i xs) : x ∈ xs :=
  List.mem_of_mem_drop (List.mem_of_mem_dropLast h)

/-- The names that the script has read are plain. -/
structure Plain (d : Drawing) : Prop where
  pipeline : PlainText d.pipelineName
  processor : ∀ id name, d.processorName.get id = some name → PlainText name

/-- A plain drawing stays plain. -/
theorem Plain.readNode {d' : Drawing} (h : d.Plain) {line : Text} (hline : '\r' ∉ line)
    (hread : d.readNode line = .ok d') : d'.Plain := by
  obtain ⟨l, hl, hread⟩ := bind_ok hread
  obtain ⟨id, hid, hread⟩ := bind_ok hread
  obtain ⟨name, hname, hread⟩ := bind_ok hread
  cases hread
  have hl' := mem_splitOn (mem_of_item hl)
  have hname' := mem_splitOn (mem_of_item hname)
  have hplain : PlainText name :=
    ⟨hname'.1, fun hc => hl'.1 (hname'.2 _ hc), fun hc => hline (hl'.2 _ (hname'.2 _ hc))⟩
  refine ⟨h.pipeline, fun k v hv => ?_⟩
  rw [PMap.get_assign] at hv
  split at hv
  · cases hv
    exact hplain.mono (fun c hc => mem_of_mem_slice hc)
  · exact h.processor k v hv

/-- So it does over all lines. -/
theorem Plain.readNodes (n : Nat) : ∀ {f : Text} {d d' : Drawing}, d.Plain → '\r' ∉ f → readNodes n f d = .ok d' →
    d'.Plain := by
  induction n with
  | zero =>
    intro f d d' hd _ hread
    cases hread
    exact hd
  | succ n ih =>
    intro f d d' hd hf hread
    obtain ⟨d₁, hd₁, hread⟩ := bind_ok hread
    have hline : '\r' ∉ (readline f).1 := fun hc => hf ((mem_readline f).1 hc)
    have hrest : '\r' ∉ (readline f).2 := fun hc => hf ((mem_readline f).2 hc)
    exact ih (hd.readNode hline hd₁) hrest hread

/-- A file in text mode has one kind of line end. -/
theorem notMem_decode {file : Bytes} {f : Text} (h : decode file = .ok f) : '\r' ∉ f := by
  unfold decode at h
  split at h
  · cases h
    exact notMem_universalNewlines _
  · cases h

/-- Whatever the file is, the names that the script finds in it are plain. -/
theorem read_plain {file : Bytes} (h : read file = .ok d) : d.Plain := by
  obtain ⟨f, hf, h⟩ := bind_ok h
  obtain ⟨field, hfield, h⟩ := bind_ok h
  obtain ⟨name, hname, h⟩ := bind_ok h
  obtain ⟨size, hsize, h⟩ := bind_ok h
  obtain ⟨nodeSize, hnodeSize, h⟩ := bind_ok h
  have hfile := notMem_decode hf
  have hfield' := mem_splitOn (mem_of_item hfield)
  have hname' := mem_splitOn (mem_of_item hname)
  have hplain : PlainText name :=
    ⟨fun hc => hfield'.1 (hname'.2 _ hc), hname'.1, fun hc => hfile ((mem_readline _).1 (hfield'.2 _ (hname'.2 _ hc)))⟩
  have hstart : Plain { pipelineName := name } := ⟨hplain, fun id v hv => by cases hv⟩
  exact hstart.readNodes nodeSize.toNat (fun hc => hfile ((mem_readline _).2 ((mem_readline _).2 hc))) h

/-- What has been recovered has plain names. -/
theorem Recovers.plainNames (h : d.Recovers p) (hd : d.Plain) : p.PlainNames where
  pipeline := ⟨d.pipelineName, hd.pipeline, h.pipelineName⟩
  processor u n hn := by
    obtain ⟨t, ht, hname⟩ := h.name u (PMap.mem_keys_of_get hn) n hn
    exact ⟨t, hd.processor _ t ht, hname⟩

end Drawing

/-! ## Dump and draw.py agree -/

/-- The script recovers a pipeline from its dump, its name, its nodes with their names and their successors, exactly
when every name is UTF-8 and holds neither a blank nor a line end. -/
theorem dump_draw (p : Pipeline V) (order : DumpOrder p) :
    (∃ d, Drawing.read (p.dump order) = .ok d ∧ d.Recovers p) ↔ p.PlainNames := by
  constructor
  · rintro ⟨d, hread, hd⟩
    exact hd.plainNames (Drawing.read_plain hread)
  · intro hp
    exact Drawing.read_dump hp order

/-- A source with this name, before a sink. -/
def sourceNamed (name : Name) : Pipeline Nat :=
  (Pipeline.ofCalls Call.Proper {} [.addSource 1 name (.generate (fun _ => none)),
    .setSink 2 "sink" .consume (.single 1)]).1

/-- The edges of the example. -/
theorem sourceNamed_succs (name : Name) (u : Id) : (sourceNamed name).succs u = if u = 1 then {2} else ∅ := by
  by_cases hu : u = 1
  · subst hu
    rfl
  · rw [if_neg hu]
    have hnone : (sourceNamed name).dags.get u = none := Function.update_of_ne hu ..
    rw [Pipeline.succs, hnone]
    rfl

/-- The nodes and the edges, the source first. -/
theorem sourceNamed_order (name : Name) :
    ([1, 2] : List Id).Nodup ∧ ([1, 2] : List Id).toFinset = (sourceNamed name).nodes.keys ∧
    ∀ u, (if u = 1 then IdSet.single 2 else ⟨[], List.nodup_nil⟩).elems.toFinset = (sourceNamed name).succs u := by
  refine ⟨by decide, show ([1, 2] : List Id).toFinset = {2, 1} by decide, fun u => ?_⟩
  rw [sourceNamed_succs]
  by_cases hu : u = 1
  · simp [hu, IdSet.single]
  · simp [hu]

/-- The dump of the source and then of the sink. -/
def sourceFirst (name : Name) : DumpOrder (sourceNamed name) where
  nodes := ⟨[1, 2], (sourceNamed_order name).1⟩
  edges u := if u = 1 then .single 2 else ⟨[], List.nodup_nil⟩
  nodes_eq := (sourceNamed_order name).2.1
  edges_eq := (sourceNamed_order name).2.2

/-- Behind a blank the rest of the name moves every field of the line by one: the script finds half a name, and an edge
to a node that does not exist. On a name that is not UTF-8 it ends with an exception. -/
theorem draw_misreads_name :
    (∃ d : Drawing, Drawing.read ((sourceNamed "my source").dump (sourceFirst _)) = .ok d ∧
      d.processorName.get ['1'] = some ['m'] ∧ d.processorMap.get ['1'] = some [[':'], ['2']] ∧
      ¬d.Recovers (sourceNamed "my source")) ∧
    Drawing.read ((sourceNamed [0xff]).dump (sourceFirst _)) = .error .unicodeDecodeError := by
  refine ⟨?_, ?_⟩
  · have hread : (Drawing.read ((sourceNamed "my source").dump (sourceFirst _))).toOption.map
        (fun d => (d.processorName.get ['1'], d.processorMap.get ['1'])) = some (some ['m'], some [[':'], ['2']]) := by
          decide +kernel
    obtain ⟨d, hd, hfound⟩ := Option.map_eq_some_iff.1 hread
    obtain ⟨hname, hposts⟩ := Prod.mk.inj hfound
    refine ⟨d, ?_, hname, hposts, fun h => ?_⟩
    · cases hr : Drawing.read ((sourceNamed "my source").dump (sourceFirst _)) with
      | error e =>
        rw [hr] at hd
        cases hd
      | ok d' =>
        rw [hr] at hd
        exact congrArg Except.ok (Option.some.inj hd)
    · obtain ⟨t, ht, hfull⟩ := h.name 1 (by decide) _ rfl
      obtain rfl : ['m'] = t := Option.some.inj (hname.symm.trans ht)
      exact absurd hfull (by decide)
  · have hdecode : Drawing.decode ((sourceNamed [0xff]).dump (sourceFirst _)) = .error .unicodeDecodeError := by
      decide +kernel
    rw [Drawing.read, hdecode]
    rfl

end Tunnel
