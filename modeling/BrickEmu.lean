import BrickEmu.HostInteger
import BrickEmu.PrescaledCounter
import BrickEmu.CompareCounter
import BrickEmu.TimedSchedule
import BrickEmu.LazyState
import BrickEmu.Program
import BrickEmu.Timer16
import BrickEmu.Timer16Ticks
import BrickEmu.Timer16Laziness
import BrickEmu.Timer16Events
import BrickEmu.Timer8
import BrickEmu.Timer8Ticks
import BrickEmu.Timer8Laziness
import BrickEmu.TimerDeadlines
import BrickEmu.Serial
import BrickEmu.Buttons
import BrickEmu.AdSensors
import BrickEmu.Watchdog
import BrickEmu.WatchdogDeadline
import BrickEmu.MotorLcd
import BrickEmu.Hash
import BrickEmu.Frame
import BrickEmu.Machine
import BrickEmu.InterruptSelection
import BrickEmu.EnabledSources
import BrickEmu.MachineEffects
import BrickEmu.Synchronization
import BrickEmu.ButtonLatch
import BrickEmu.Debugger
import BrickEmu.DebuggerBuffer
import BrickEmu.DebuggerStream
import BrickEmu.DebuggerCommands
import BrickEmu.DebuggerBounds
import BrickEmu.DebuggerRegisters
import BrickEmu.Instructions
import BrickEmu.RunCpu
import BrickEmu.InterruptShadow
import BrickEmu.WordMemory
import BrickEmu.BrickosHeap
import BrickEmu.BrickosRefinement
import BrickEmu.BrickosCalls
import BrickEmu.BrickosFirstFree
import BrickEmu.BiboHeap
import BrickEmu.BiboSteps
import BrickEmu.BiboCalls
import BrickEmu.BiboPayload
import BrickEmu.ProgramSlots
import BrickEmu.SlotSafety
import BrickEmu.SplayTree
import BrickEmu.Symbols
import BrickEmu.ByteStream
import BrickEmu.SavefileSymbols
import BrickEmu.SavefileBlocks
import BrickEmu.Savefile
import BrickEmu.SavefileIdentity
import BrickEmu.SavefileCommand
import BrickEmu.SlotModels
import BrickEmu.AsmCore
import BrickEmu.AsmFlags
import BrickEmu.AsmAgreement
import BrickEmu.AsmRegisters
import BrickEmu.AsmJumps
import BrickEmu.AsmMoves
import BrickEmu.AsmPorts
import BrickEmu.AsmBits
import BrickEmu.AsmCoreAgrees
import BrickEmu.IrServer
import BrickEmu.LcdProtocol
import BrickEmu.SerialTransmission
import BrickEmu.FlagRegister
import BrickEmu.StatusFlags
import BrickEmu.InstructionRule
import BrickEmu.RomProtection
import BrickEmu.GuiCommands
import BrickEmu.ProfilerLedger
import BrickEmu.RomSerial
import BrickEmu.SerialReceiver
import BrickEmu.SerialPackets
import BrickEmu.SerialAgreement
import BrickEmu.IrNetwork
import BrickEmu.RomLcd
import BrickEmu.LcdRefresh
import BrickEmu.RomUpdate
import BrickEmu.ReceiveFrame
import BrickEmu.FirmwareStart
import BrickEmu.FirmwareVerified
import BrickEmu.FirmwareRun
import BrickEmu.RestoringDivision
import BrickEmu.RomCode
import BrickEmu.RomRules
import BrickEmu.RomDivision
import BrickEmu.RomMultiplication
import BrickEmu.RomLongDivision
import BrickEmu.RomSignedDivision
import BrickEmu.MultiPrecision
import BrickEmu.OperandChain
import BrickEmu.AdditionFlags
import BrickEmu.SubtractionFlags
import BrickEmu.DecimalChain
import BrickEmu.BulkCounting
import BrickEmu.Timer8Pin
import BrickEmu.SoundLedger
import BrickEmu.Pacing
import BrickEmu.ProgramAddress
import BrickEmu.ThreadSwitch
import BrickEmu.ProfilerBounds
import BrickEmu.SingleStep
import BrickEmu.HeapTermination
import BrickEmu.EmulatedTime
import BrickEmu.SplaySearch
import BrickEmu.SymbolOrder
import BrickEmu.SymbolRemoval
import BrickEmu.SymbolLookups
import BrickEmu.TrapPairs
import BrickEmu.DebugPrintf
import BrickEmu.PrintfArguments
import BrickEmu.HostFile
import BrickEmu.Srec
import BrickEmu.SrecFile
import BrickEmu.FileLoaders
import BrickEmu.LoaderBounds
import BrickEmu.CoffSymbols
import BrickEmu.ProgramFiles
import BrickEmu.LxRelocation
import BrickEmu.ProgramBounds
import BrickEmu.SymbolTable
import BrickEmu.HashMap
import BrickEmu.WordAccess
import BrickEmu.TrapAtomicity
import BrickEmu.NestedCalls
import BrickEmu.LcdPointer
import BrickEmu.RomLcdNumber
import BrickEmu.SampleFifo
import BrickEmu.RomTimerCounters
import BrickEmu.RomSoundFifo
