import CodexPlus.WorkflowAgent
import CodexPlus.JournalReplay
import CodexPlus.ValidPrompt
import CodexPlus.SendableHistory
import CodexPlus.PatchVerify
import CodexPlus.FileEditGate
import CodexPlus.AnthropicRoundTrip
import CodexPlus.ManagedSnapshot
import CodexPlus.NormalizeReorder
import CodexPlus.BarrierClose
import CodexPlus.ReplayRepair
import CodexPlus.ReasoningOrder
import CodexPlus.NoiseRelay
import CodexPlus.StreamChunks
import CodexPlus.HashlineFrame
import CodexPlus.HeadTailBuffer
import CodexPlus.FileEditMatches
import CodexPlus.PatchBounds
import CodexPlus.PatchEffect
import CodexPlus.ToolCallSplits
import CodexPlus.ToolNames
import CodexPlus.TruncateMiddle
import CodexPlus.ChatBodyMerge
import CodexPlus.PolicyAmendment
