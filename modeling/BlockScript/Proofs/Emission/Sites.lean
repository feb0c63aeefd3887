import BlockScript.Proofs.Emission.Equations
import BlockScript.Proofs.Emission.Lines
import BlockScript.Proofs.Numbering.Names
import BlockScript.Proofs.Script.Blocks
/-!
# Where names are bound

A name is bound at a site: in a role, for a node.  The sites that the code of a tree binds directly
in its block are for distinct nodes of the tree (`Lays`), and so are the sites of each block inside.
A site other than a call's has a node that bears its own number; so within a block only calls of one
function share a name (`nodup_names_iff`).
-/

namespace BlockScript.Emission

open BlockScript.Graph (PreOrder IsTree)
open Script (Line Code Block Adds Name Operand Nesting)

/-- A node whose name in a role is bound. -/
structure Site where
  role : Role
  node : NodeId
deriving DecidableEq, Repr

end BlockScript.Emission

namespace BlockScript.Graph

def isCall (g : Graph) (id : NodeId) : Bool :=
  match g.node? id with
  | some ⟨.expression (.call _), _, _⟩ => true
  | _ => false

end BlockScript.Graph

namespace BlockScript.Emission.Context

open BlockScript.Graph (PreOrder IsTree)
open Script (Line Code Block Adds Name Operand Nesting)

variable {c : Context} {depth : Nat} {id : NodeId} {nodes l l' : List NodeId} {ls ls' : List Line}

def number (c : Context) (id : NodeId) : Nat :=
  match c.numbering.serial id with
  | .ok n => n
  | .error _ => 0

theorem number_eq {n : Nat} (h : c.numbering.serial id = .ok n) : c.number id = n := by
  rw [number, h]

def siteName (c : Context) (s : Site) : Name :=
  s.role.name (c.number s.node)

/-- What sites bind, and call for a value, in their block. -/
def siteBlock (c : Context) (sites : List Site) : Block :=
  ⟨sites.map c.siteName,
    (sites.filter fun s => c.graph.isCall s.node).map fun s => c.number s.node⟩

theorem siteBlock_append (a b : List Site) :
    c.siteBlock (a ++ b) = c.siteBlock a ++ c.siteBlock b := by
  show _ = Block.append _ _
  simp [siteBlock, Block.append]

/-- A call's site is a variable's with the number of a definition; every other site's node bears its
own number, and is no definition if the site is a variable's. -/
structure Proper (c : Context) (s : Site) : Prop where
  serial : ∃ n, c.numbering.serial s.node = .ok n
  call : c.graph.isCall s.node = true →
    s.role = .var ∧ ∃ d, c.graph.definition (c.numbering.bearer s.node) = .ok d
  self : c.graph.isCall s.node = false → c.numbering.bearer s.node = s.node ∧
    (s.role = .var → ∀ d, c.graph.definition s.node ≠ .ok d)

namespace Proper

variable {g : Graph} {s t : Site}

theorem bearer_eq (hindexed : c.numbering.Indexed g) (hs : c.Proper s) (ht : c.Proper t)
    (h : c.number s.node = c.number t.node) :
    c.numbering.bearer s.node = c.numbering.bearer t.node := by
  obtain ⟨m, hm⟩ := hs.serial
  obtain ⟨n, hn⟩ := ht.serial
  rw [number_eq hm, number_eq hn] at h
  exact (hindexed.serial_eq_iff hm hn).mp h

theorem isCall_of_siteName_eq (hindexed : c.numbering.Indexed g) (hs : c.Proper s)
    (ht : c.Proper t) (h : c.siteName s = c.siteName t) (hcall : c.graph.isCall s.node = true) :
    c.graph.isCall t.node = true := by
  obtain ⟨hrole, hnumber⟩ := Role.name_inj.mp h
  obtain ⟨hvar, d, hd⟩ := hs.call hcall
  by_contra hnot
  rw [Bool.not_eq_true] at hnot
  obtain ⟨hself, hdefinition⟩ := ht.self hnot
  have hbearer := hs.bearer_eq hindexed ht hnumber
  rw [hbearer, hself] at hd
  exact hdefinition (hrole ▸ hvar) d hd

/-- Sites that share a name are one site, or calls. -/
theorem eq_or_isCall (hindexed : c.numbering.Indexed g) (hs : c.Proper s) (ht : c.Proper t)
    (h : c.siteName s = c.siteName t) :
    s = t ∨ (c.graph.isCall s.node = true ∧ c.graph.isCall t.node = true) := by
  by_cases hcall : c.graph.isCall s.node = true
  · exact .inr ⟨hcall, hs.isCall_of_siteName_eq hindexed ht h hcall⟩
  · have hcall' : ¬c.graph.isCall t.node = true := fun ht' =>
      hcall (ht.isCall_of_siteName_eq hindexed hs h.symm ht')
    rw [Bool.not_eq_true] at hcall hcall'
    obtain ⟨hrole, hnumber⟩ := Role.name_inj.mp h
    have hbearer := hs.bearer_eq hindexed ht hnumber
    rw [(hs.self hcall).1, (ht.self hcall').1] at hbearer
    cases s
    cases t
    exact .inl (congrArg₂ Site.mk hrole hbearer)

end Proper

structure Sound (c : Context) (sites : List Site) : Prop where
  nodup : sites.Nodup
  proper : ∀ s ∈ sites, c.Proper s

/-- Distinct proper sites share names as far as functions are called for a value more than once. -/
theorem Sound.nodup_names_iff {g : Graph} {sites : List Site} (h : c.Sound sites)
    (hindexed : c.numbering.Indexed g) :
    ((c.siteBlock sites).names.map Name.render).Nodup ↔ (c.siteBlock sites).callees.Nodup := by
  rw [List.nodup_map_iff fun a b => Name.render_injective]
  constructor
  · intro hnames
    have hcalls : ((sites.filter fun s => c.graph.isCall s.node).map c.siteName).Nodup :=
      hnames.sublist (List.filter_sublist.map _)
    -- All calls are bound in the role of variables, so their names differ by their numbers.
    have hmap : (sites.filter fun s => c.graph.isCall s.node).map c.siteName =
        ((sites.filter fun s => c.graph.isCall s.node).map fun s => c.number s.node).map
          Name.var := by
      rw [List.map_map]
      apply List.map_congr_left
      intro s hs
      obtain ⟨hs, hcall⟩ := List.mem_filter.mp hs
      rw [siteName, ((h.proper s hs).call hcall).1]
      rfl
    rw [hmap] at hcalls
    exact hcalls.of_map
  · intro hcallees
    apply h.nodup.map_on
    intro s hs t ht hname
    rcases (h.proper s hs).eq_or_isCall hindexed (h.proper t ht) hname with heq | ⟨hcall, hcall'⟩
    · exact heq
    · have hs' : s ∈ sites.filter fun s => c.graph.isCall s.node := List.mem_filter.mpr ⟨hs, hcall⟩
      have ht' : t ∈ sites.filter fun s => c.graph.isCall s.node := List.mem_filter.mpr ⟨ht, hcall'⟩
      exact List.inj_on_of_nodup_map hcallees hs' ht' (Role.name_inj.mp hname).2

/-! ## Code and its sites -/

/-- The lines bind the sites `direct`, which are as `P` says, in the block that they stand in, each
for a node of its own among `l`; and each block inside binds sound sites. -/
structure Laid (c : Context) (P : Site → Prop) (l : List NodeId) (ls : List Line)
    (direct : List Site) (inner : List (List Site)) : Prop where
  adds : Adds ls (c.siteBlock direct) (inner.map c.siteBlock)
  subperm : (direct.map Site.node).Subperm l
  proper : ∀ s ∈ direct, c.Proper s
  holds : ∀ s ∈ direct, P s
  sound : ∀ sites ∈ inner, c.Sound sites

/-- The code binds names for nodes of its own among `l`, at sites as `P` says. -/
def Lays (c : Context) (P : Site → Prop) (l : List NodeId) (ls : List Line) : Prop :=
  ∃ direct inner, c.Laid P l ls direct inner

namespace Lays

variable {P Q : Site → Prop}

theorem nil (c : Context) (P : Site → Prop) (l : List NodeId) : c.Lays P l [] :=
  ⟨[], [], Adds.nil, List.nil_subperm, by simp, by simp, by simp⟩

theorem mono (h : c.Lays P l ls) (hl : l.Subperm l') : c.Lays P l' ls := by
  obtain ⟨direct, inner, hadds, hsubperm, hproper, hholds, hsound⟩ := h
  exact ⟨direct, inner, hadds, hsubperm.trans hl, hproper, hholds, hsound⟩

theorem imp (h : c.Lays P l ls) (hP : ∀ s, P s → Q s) : c.Lays Q l ls := by
  obtain ⟨direct, inner, hadds, hsubperm, hproper, hholds, hsound⟩ := h
  exact ⟨direct, inner, hadds, hsubperm, hproper, fun s hs => hP s (hholds s hs), hsound⟩

theorem append (h : c.Lays P l ls) (h' : c.Lays P l' ls') : c.Lays P (l ++ l') (ls ++ ls') := by
  obtain ⟨direct, inner, hadds, hsubperm, hproper, hholds, hsound⟩ := h
  obtain ⟨direct', inner', hadds', hsubperm', hproper', hholds', hsound'⟩ := h'
  refine ⟨direct ++ direct', inner ++ inner', ⟨?_, ?_, ?_, ?_, ?_⟩⟩
  · rw [siteBlock_append, List.map_append]
    exact hadds.append hadds'
  · rw [List.map_append]
    exact hsubperm.append hsubperm'
  · exact List.forall_mem_append.mpr ⟨hproper, hproper'⟩
  · exact List.forall_mem_append.mpr ⟨hholds, hholds'⟩
  · exact List.forall_mem_append.mpr ⟨hsound, hsound'⟩

theorem line {code : Code} (hnesting : code.nesting = .within) (hblock : code.block = .empty) :
    c.Lays P [] [⟨depth, code⟩] := by
  refine ⟨[], [], ⟨?_, List.Subperm.refl [], by simp, by simp, by simp⟩⟩
  have hadds : Adds [⟨depth, code⟩] code.block [] := Adds.line hnesting
  rw [hblock] at hadds
  exact hadds

theorem site {code : Code} {s : Site} (hnesting : code.nesting = .within)
    (hblock : code.block = c.siteBlock [s]) (hs : c.Proper s) (hP : P s) :
    c.Lays P [s.node] [⟨depth, code⟩] := by
  refine ⟨[s], [], ⟨?_, List.Subperm.refl _, by simpa using hs, by simpa using hP, by simp⟩⟩
  have hadds : Adds [⟨depth, code⟩] code.block [] := Adds.line hnesting
  rw [hblock] at hadds
  exact hadds

/-- A block of code, with the sites that are bound where it is opened. -/
theorem nested {code : Code} (entry outer : List Site)
    (hnesting : code.nesting = .opens (entry.map c.siteName))
    (hblock : code.block = c.siteBlock outer) (hbody : c.Lays Q l ls)
    (hnodup : (entry.map Site.node ++ l).Nodup)
    (hentry : ∀ s ∈ entry, c.Proper s ∧ c.graph.isCall s.node = false)
    (houter : ∀ s ∈ outer, c.Proper s ∧ P s) :
    c.Lays P (outer.map Site.node) (⟨depth, code⟩ :: (ls ++ [⟨depth, .close⟩])) := by
  obtain ⟨direct, inner, hadds, hsubperm, hproper, _, hsound⟩ := hbody
  have hblocks : (⟨entry.map c.siteName, []⟩ ++ c.siteBlock direct : Block) =
      c.siteBlock (entry ++ direct) := by
    have hfilter : entry.filter (fun s => c.graph.isCall s.node) = [] := by
      apply List.filter_eq_nil_iff.mpr
      intro s hs
      simp [(hentry s hs).2]
    have hentry' : c.siteBlock entry = ⟨entry.map c.siteName, []⟩ := by
      unfold siteBlock
      rw [hfilter]
      rfl
    rw [siteBlock_append, hentry']
  have hsites : c.Sound (entry ++ direct) := by
    have hnodes : ((entry ++ direct).map Site.node).Subperm (entry.map Site.node ++ l) := by
      rw [List.map_append]
      exact (List.Subperm.refl _).append hsubperm
    obtain ⟨m, hperm, hsub⟩ := hnodes
    refine ⟨(hperm.nodup_iff.mp (hnodup.sublist hsub)).of_map, ?_⟩
    exact List.forall_mem_append.mpr ⟨fun s hs => (hentry s hs).1, hproper⟩
  refine ⟨outer, inner ++ [entry ++ direct], ⟨?_, List.Subperm.refl _, fun s hs => (houter s hs).1,
    fun s hs => (houter s hs).2, ?_⟩⟩
  · have hnested : Adds (⟨depth, code⟩ :: (ls ++ [⟨depth, .close⟩])) _ _ :=
      Adds.nested hnesting hadds
    rw [hblock, hblocks] at hnested
    simpa using hnested
  · exact List.forall_mem_append.mpr ⟨hsound, by simpa using hsites⟩

/-- A block that binds nothing where it is opened, nor in the block around it. -/
theorem block (hbody : c.Lays Q l ls) (depth : Nat) (code : Code) (hnodup : l.Nodup)
    (hnesting : code.nesting = .opens []) (hblock : code.block = .empty) :
    c.Lays P [] (⟨depth, code⟩ :: (ls ++ [⟨depth, .close⟩])) :=
  nested [] [] hnesting hblock hbody hnodup (by simp) (by simp)

end Lays

/-- The code binds sound sites, as `P` says, directly and in each block inside. -/
def Binds (c : Context) (P : Site → Prop) (ls : List Line) : Prop :=
  ∃ (direct : List Site) (inner : List (List Site)),
    Adds ls (c.siteBlock direct) (inner.map c.siteBlock) ∧ c.Sound direct ∧
      (∀ s ∈ direct, P s) ∧ ∀ sites ∈ inner, c.Sound sites

theorem Lays.binds {P : Site → Prop} (h : c.Lays P l ls) (hnodup : l.Nodup) : c.Binds P ls := by
  obtain ⟨direct, inner, hadds, ⟨m, hperm, hsub⟩, hproper, hholds, hsound⟩ := h
  have hnodes := hperm.nodup_iff.mp (hnodup.sublist hsub)
  exact ⟨direct, inner, hadds, ⟨hnodes.of_map, hproper⟩, hholds, hsound⟩

namespace Binds

variable {P Q : Site → Prop}

theorem nil (c : Context) (P : Site → Prop) : c.Binds P [] :=
  (Lays.nil c P []).binds List.nodup_nil

theorem append (h : c.Binds P ls) (h' : c.Binds Q ls') (hapart : ∀ s, P s → ¬Q s) :
    c.Binds (fun s => P s ∨ Q s) (ls ++ ls') := by
  obtain ⟨direct, inner, hadds, hdirect, hholds, hsound⟩ := h
  obtain ⟨direct', inner', hadds', hdirect', hholds', hsound'⟩ := h'
  refine ⟨direct ++ direct', inner ++ inner', ?_, ⟨?_, ?_⟩, ?_, ?_⟩
  · rw [siteBlock_append, List.map_append]
    exact hadds.append hadds'
  · apply hdirect.nodup.append hdirect'.nodup
    intro s hs hs'
    exact hapart s (hholds s hs) (hholds' s hs')
  · exact List.forall_mem_append.mpr ⟨hdirect.proper, hdirect'.proper⟩
  · exact List.forall_mem_append.mpr
      ⟨fun s hs => .inl (hholds s hs), fun s hs => .inr (hholds' s hs)⟩
  · exact List.forall_mem_append.mpr ⟨hsound, hsound'⟩

theorem imp (h : c.Binds P ls) (hP : ∀ s, P s → Q s) : c.Binds Q ls := by
  obtain ⟨direct, inner, hadds, hdirect, hholds, hsound⟩ := h
  exact ⟨direct, inner, hadds, hdirect, fun s hs => hP s (hholds s hs), hsound⟩

/-- In every block names are shared as far as functions are called for a value more than once. -/
theorem nodup_names_iff {g : Graph} (h : c.Binds P ls) (hindexed : c.numbering.Indexed g)
    {b : Block} (hb : b ∈ Script.blocks ls) : (b.names.map Name.render).Nodup ↔ b.callees.Nodup := by
  obtain ⟨direct, inner, hadds, hdirect, _, hsound⟩ := h
  rw [hadds.blocks_eq, List.mem_append, List.mem_map, List.mem_singleton] at hb
  rcases hb with ⟨sites, hsites, rfl⟩ | rfl
  · exact (hsound sites hsites).nodup_names_iff hindexed
  · exact hdirect.nodup_names_iff hindexed

end Binds

end BlockScript.Emission.Context
