import ScriptMachine.Proofs.Codec.Truncation
import ScriptMachine.Scope.Codec

/-!
# Saved threads and scopes notice where they end

The readers of threads, variables and scopes are self-delimiting, level by level as they are built.
-/

namespace ScriptMachine

open Reader Varint

/-! ## Threads -/

theorem selfDelimiting_sparse : SelfDelimiting Sparse.read := by
  unfold Sparse.read
  have hcell : SelfDelimiting (do return (← readWord, ← readWord) : Reader (Word × Word)) :=
    selfDelimiting_readWord.bind fun k => selfDelimiting_readWord.map _
  exact hcell.list.map _

theorem selfDelimiting_threadInfo : SelfDelimiting ThreadInfo.read := by
  unfold ThreadInfo.read
  refine selfDelimiting_readWord.bind fun activator => ?_
  exact selfDelimiting_readWord.bind fun line => selfDelimiting_readWord.map _

theorem selfDelimiting_threadState : SelfDelimiting ThreadState.read := by
  unfold ThreadState.read
  refine (selfDelimiting_read .bits8).bind fun kind => ?_
  split
  · exact .pure _
  · exact .pure _
  · exact .pure _
  · exact .pure _
  · exact selfDelimiting_readSigned.map _
  · exact selfDelimiting_string.map _
  · exact selfDelimiting_readWord.bind fun type => selfDelimiting_readWord.map _
  · exact .malformed _

theorem selfDelimiting_frame : SelfDelimiting Frame.read := by
  unfold Frame.read
  refine selfDelimiting_readSize.bind fun ret => selfDelimiting_readSize.bind fun regBase => ?_
  refine selfDelimiting_readSize.bind fun arrBase => selfDelimiting_bool.bind fun discard => ?_
  exact selfDelimiting_readWord.map _

/-- The two checks of a thread stand between its fields and take no bytes. -/
theorem selfDelimiting_thread (x : LoadedModule) (scope : ScopeId) (i : Nat) :
    SelfDelimiting (Thread.read x scope i) := by
  unfold Thread.read
  refine selfDelimiting_readWord.bind fun id => selfDelimiting_readSize.bind fun scriptIndex => ?_
  split
  · exact .fail_bind _ _
  refine selfDelimiting_readSize.bind fun codePtr => selfDelimiting_words.bind fun stack => ?_
  refine selfDelimiting_frame.list.bind fun frames => selfDelimiting_words.bind fun regs => ?_
  refine selfDelimiting_sparse.list.bind fun arrs => selfDelimiting_readSize.bind fun regBase => ?_
  refine selfDelimiting_readSize.bind fun arrBase => ?_
  split
  · exact .fail_bind _ _
  refine selfDelimiting_readWord.bind fun result => selfDelimiting_readWord.bind fun delay => ?_
  refine selfDelimiting_threadState.bind fun state => selfDelimiting_threadInfo.bind fun info => ?_
  exact selfDelimiting_string.bind fun printed => selfDelimiting_words.map _

/-! ## Scopes -/

theorem selfDelimiting_vars : SelfDelimiting Vars.read := by
  unfold Vars.read
  refine selfDelimiting_words.bind fun regs => selfDelimiting_sparse.list.bind fun arrs => ?_
  exact selfDelimiting_words.map _

variable (modules : List LoadedModule)

theorem selfDelimiting_moduleScope (scope : ScopeId) (i : Nat) :
    SelfDelimiting (ModuleScope.read modules scope i) := by
  unfold ModuleScope.read
  refine selfDelimiting_readSize.bind fun saved => ?_
  split
  · exact .malformed _
  · rename_i x _
    exact selfDelimiting_vars.bind fun vars => (selfDelimiting_thread x scope i).list.map _

theorem selfDelimiting_slot (places : List ModuleScope) :
    SelfDelimiting (ScriptSlot.read places) := by
  unfold ScriptSlot.read
  refine selfDelimiting_scriptName.bind fun name => selfDelimiting_readSize.bind fun moduleIndex => ?_
  refine selfDelimiting_readSize.bind fun scriptIndex => selfDelimiting_bool.bind fun held => ?_
  refine selfDelimiting_readWord.bind fun thread => ?_
  split
  · exact .malformed _
  · split
    · exact .malformed _
    · exact .pure _

theorem selfDelimiting_map (global hub : Word) :
    SelfDelimiting (MapScope.read modules global hub) := by
  unfold MapScope.read
  refine selfDelimiting_readWord.bind fun id => selfDelimiting_bool.bind fun active => ?_
  refine selfDelimiting_readWord.bind fun nextThreadId => ?_
  refine (SelfDelimiting.listFrom (selfDelimiting_moduleScope modules _)).bind fun scopes => ?_
  exact (selfDelimiting_slot scopes).list.map _

theorem selfDelimiting_hub (global : Word) : SelfDelimiting (HubScope.read modules global) := by
  unfold HubScope.read
  refine selfDelimiting_readWord.bind fun id => selfDelimiting_bool.bind fun active => ?_
  exact selfDelimiting_vars.bind fun vars => (selfDelimiting_map modules global id).list.map _

theorem selfDelimiting_global : SelfDelimiting (GlobalScope.read modules) := by
  unfold GlobalScope.read
  refine selfDelimiting_readWord.bind fun id => selfDelimiting_bool.bind fun active => ?_
  exact selfDelimiting_vars.bind fun vars => (selfDelimiting_hub modules id).list.map _

end ScriptMachine
