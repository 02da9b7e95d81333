import Acpi.Command.Run
import Acpi.Proofs.BoardTree
import Acpi.Proofs.Check
import Acpi.Proofs.FileTree

/-!
# The commands agree

A tree that comes from a description is well built and unstamped, so only one thing can stand
against its table: that it is too large.  Then neither `size` nor `build` gives anything, and no
file is touched (`TooLarge`).  Otherwise `build` makes a table of just the size that `size` tells,
writes it to its place and nowhere else, and `check` accepts it (`Built`).

Main result: `build_size_check_agree`.
-/

namespace Acpi.Command

open Table (Sound)

/-! ## Running on a tree of files -/

section Running

variable (reader : Board.Reader)

theorem run_size (files : FileTree) (config : String) :
    ((Request.size config).run reader FileTree.store).run files =
      match treeOf reader config (files.read config) >>= required with
      | .error failure => (.error failure, files)
      | .ok total => (.ok (Nat.repr total ++ "\n"), files) := by
  cases h : treeOf reader config (files.read config) >>= required <;>
    simp only [Request.run, FileTree.store, bind_pure_comp, bind_map_left, StateT.run_bind,
      StateT.run_get, pure_bind, h, StateT.run_pure] <;>
    rfl

/-- A file is touched only if there is a table to be written. -/
theorem run_build (files : FileTree) (config output : String) :
    ((Request.build config output).run reader FileTree.store).run files =
      match treeOf reader config (files.read config) >>= tableOf with
      | .error failure => (.error failure, files)
      | .ok table =>
          match files.write output table with
          | .error cause => (.error (.write output cause), files)
          | .ok written => (.ok "", written) := by
  cases h : treeOf reader config (files.read config) >>= tableOf with
  | error failure =>
      simp only [Request.run, FileTree.store, bind_pure_comp, bind_assoc, bind_map_left,
        StateT.run_bind, StateT.run_get, pure_bind, h, StateT.run_pure]
      rfl
  | ok table =>
      cases hWrite : files.write output table <;>
        simp only [Request.run, FileTree.store, bind_pure_comp, bind_assoc, bind_map_left,
          StateT.run_bind, StateT.run_get, pure_bind, h, hWrite, StateT.run_map, StateT.run_set,
          map_pure, StateT.run_pure] <;>
        rfl

end Running

/-! ## The two endings -/

/-- The table of a tree would be too large: nobody gives a size or a table, and a command that is
asked for one leaves all files as they are.  It does not matter in which notation the description
of the tree was read. -/
structure TooLarge (node : Node) : Prop where
  query_eq : (Table.query node).1 = .error .sizeOverflow
  required_eq : required node = .error (.size .sizeOverflow)
  tableOf_eq : tableOf node = .error (.size .sizeOverflow)
  run_size_eq : ∀ (reader : Board.Reader) (files : FileTree) (config : String),
    treeOf reader config (files.read config) = .ok node →
      ((Request.size config).run reader FileTree.store).run files =
        (.error (.size .sizeOverflow), files)
  run_build_eq : ∀ (reader : Board.Reader) (files : FileTree) (config output : String),
    treeOf reader config (files.read config) = .ok node →
      ((Request.build config output).run reader FileTree.store).run files =
        (.error (.size .sizeOverflow), files)

/-- The table of a tree has this size and these bytes: the size is the one that is told beforehand,
and a check accepts the bytes.  A command that is asked for the table has written it where it was
told to and nowhere else, or has failed and left all files as they are. -/
structure Built (node : Node) (total : Nat) (table : ByteArray) : Prop where
  query_eq : (Table.query node).1 = .ok total
  required_eq : required node = .ok total
  result_eq : (Table.write node (Bytes.fill total 0)).result = .ok total
  buffer_eq : (Table.write node (Bytes.fill total 0)).buffer = table
  size_eq : table.size = total
  tableOf_eq : tableOf node = .ok table
  check_ok : ∃ header, Table.check table = .ok header
  run_size_eq : ∀ (reader : Board.Reader) (files : FileTree) (config : String),
    treeOf reader config (files.read config) = .ok node →
      ((Request.size config).run reader FileTree.store).run files =
        (.ok (Nat.repr total ++ "\n"), files)
  run_build_eq : ∀ (reader : Board.Reader) (files written : FileTree) (config output : String),
    treeOf reader config (files.read config) = .ok node →
    files.write output table = .ok written →
      ((Request.build config output).run reader FileTree.store).run files = (.ok "", written) ∧
        files.Written output table written
  run_build_error : ∀ (reader : Board.Reader) (files : FileTree) (config output : String)
      (cause : FileError), treeOf reader config (files.read config) = .ok node →
    files.write output table = .error cause →
      ((Request.build config output).run reader FileTree.store).run files =
        (.error (.write output cause), files)

theorem tooLarge_of_query {node : Node} (h : (Table.query node).1 = .error .sizeOverflow) :
    TooLarge node := by
  have hRequired : required node = .error (.size .sizeOverflow) := by
    rw [required, h]
    rfl
  have hTable : tableOf node = .error (.size .sizeOverflow) := by
    rw [tableOf, hRequired]
    rfl
  refine ⟨h, hRequired, hTable, fun reader files config hTree => ?_,
    fun reader files config output hTree => ?_⟩
  · rw [run_size, bind_of_ok hTree, hRequired]
  · rw [run_build, bind_of_ok hTree, hTable]

theorem built_of_write {node : Node} {total : Nat} {table : ByteArray}
    (hQuery : (Table.query node).1 = .ok total)
    (hResult : (Table.write node (Bytes.fill total 0)).result = .ok total)
    (hBuffer : (Table.write node (Bytes.fill total 0)).buffer = table)
    (hSize : table.size = total) : Built node total table := by
  have hRequired : required node = .ok total := by
    rw [required, hQuery]
    rfl
  have hTable : tableOf node = .ok table := by
    rw [tableOf, bind_of_ok hRequired, bind_of_ok (mapError_eq_ok_iff.2 hResult), if_pos rfl,
      hBuffer]
    rfl
  have hSound := Table.sound_of_write hResult
  rw [hBuffer, ← hSize, ByteArray.extract_zero_size] at hSound
  refine ⟨hQuery, hRequired, hResult, hBuffer, hSize, hTable,
    (Table.check_ok_iff_sound table).2 hSound, fun reader files config hTree => ?_,
    fun reader files written config output hTree hWrite => ⟨?_, FileTree.written_of_write hWrite⟩,
    fun reader files config output cause hTree hWrite => ?_⟩
  · rw [run_size, bind_of_ok hTree, hRequired]
  · rw [run_build, bind_of_ok hTree, hTable]
    simp only [hWrite]
  · rw [run_build, bind_of_ok hTree, hTable]
    simp only [hWrite]

/-- The table of a description can only be too large. -/
theorem tooLarge_or_built {description : Board.Description} {node : Node}
    (h : description.node = .ok node) : TooLarge node ∨ ∃ total table, Built node total table := by
  have hForm := Board.Description.wellFormed h
  obtain ⟨header, scopes, hHeader, -, rfl⟩ := Board.Description.node_eq_ok_iff.1 h
  cases hLayout : Layout.ofBody scopes with
  | error cause =>
      have hNode : Layout.ofNode (.block header scopes) = .error cause := hLayout
      rcases Layout.error_of_ofBody hLayout with rfl | rfl
      · exact absurd hNode (Layout.ofNode_ne_error _ (fun _ => hForm) nofun)
      · refine Or.inl (tooLarge_of_query ?_)
        rw [Table.query, hLayout]
  | ok layout =>
      have hFresh : ¬ Table.Stale header layout :=
        fun hStale => hStale.1 (Board.Identity.unstamped hHeader)
      have hZeros := Bytes.size_fill layout.total.toNat 0
      have hWrite := Table.write_eq hLayout (Nat.le_of_eq hZeros.symm) hFresh
      rw [hZeros, ByteArray.extract_same, ByteArray.append_empty] at hWrite
      refine Or.inr ⟨layout.total.toNat, _, built_of_write ?_ ?_ rfl ?_⟩
      · rw [Table.query, hLayout]
      · rw [hWrite]
      · rw [hWrite, List.size_toByteArray]
        exact Table.length_table _ hLayout

/-- **Build, size and check agree, and a check detects damage.**  The tree of a description is too
large for a table, or its table is built with just the size that is told beforehand and is accepted.
A check accepts the sound tables and no others.  So of a table that a write has finished, whatever
its tree, it rejects everything that differs in a single byte, that has lost its end or that has
something behind it. -/
theorem build_size_check_agree :
    (∀ (description : Board.Description) (node : Node), description.node = .ok node →
      TooLarge node ∨ ∃ total table, Built node total table) ∧
    (∀ table : ByteArray, (∃ header, Table.check table = .ok header) ↔ Sound table) ∧
    ∀ (node : Node) (buffer : ByteArray) (total : Nat),
      (Table.write node buffer).result = .ok total →
      let table := (Table.write node buffer).buffer.extract 0 total
      table.size = total ∧ (∃ header, Table.check table = .ok header) ∧
        (∀ (index : Nat) (byte old : UInt8), table.data.toList[index]? = some old → byte ≠ old →
          ∃ error, Table.check (table.data.toList.set index byte).toByteArray = .error error) ∧
        (∀ count, count < total → ∃ error, Table.check (table.extract 0 count) = .error error) ∧
        ∀ more : ByteArray, more.size ≠ 0 →
          ∃ error, Table.check (table ++ more) = .error error := by
  refine ⟨fun description node => tooLarge_or_built, Table.check_ok_iff_sound, ?_⟩
  intro node buffer total hWrite table
  have hSound : Sound table := Table.sound_of_write hWrite
  have hSize : table.size = total := Table.size_of_write hWrite
  refine ⟨hSize, (Table.check_ok_iff_sound table).2 hSound,
    fun index byte old => hSound.rejects_set, fun count hCount => ?_,
    fun more => hSound.rejects_extension⟩
  rw [← hSize] at hCount
  exact hSound.rejects_truncation hCount

/-- A serial port: its table is built, and a byte more is noticed. -/
theorem build_size_check_agree_port :
    let description : Board.Description := ⟨{}, [⟨"\\_SB", [
      ⟨"COM1", "PNP0501", some 1, none, some 15, [.io 0x3F8 0x3F8 1 8 true]⟩]⟩]⟩
    ∃ node table, description.node = .ok node ∧ Built node 95 table ∧
      ∃ error, Table.check (table ++ [0].toByteArray) = .error error := by
  intro description
  have hSize : (match description.node with
      | .ok node => (Table.query node).1
      | .error _ => .error .invalidTree) = .ok 95 := by
    decide +kernel
  cases hNode : description.node with
  | error cause =>
      rw [hNode] at hSize
      cases hSize
  | ok node =>
      rw [hNode] at hSize
      obtain ⟨hAgree, -, hDamage⟩ := build_size_check_agree
      rcases hAgree description node hNode with hLarge | ⟨total, table, hBuilt⟩
      · cases hLarge.query_eq.symm.trans hSize
      · cases hBuilt.query_eq.symm.trans hSize
        refine ⟨node, table, rfl, hBuilt, ?_⟩
        obtain ⟨-, -, -, -, hMore⟩ := hDamage node _ 95 hBuilt.result_eq
        rw [hBuilt.buffer_eq] at hMore
        simp only [← hBuilt.size_eq, ByteArray.extract_zero_size] at hMore
        exact hMore _ (by decide)

end Acpi.Command
