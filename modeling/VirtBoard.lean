import VirtBoard.Main
import VirtBoard.Proofs.Qemu.ArgumentReading
import VirtBoard.Proofs.Qemu.OptionReading
import VirtBoard.Proofs.Qemu.UserText
import VirtBoard.Proofs.FileSystem.Walks
import VirtBoard.Proofs.Path.Names
import VirtBoard.Proofs.Action.Steps
import VirtBoard.Proofs.Launch.Jobs
import VirtBoard.Proofs.Launch.Stages
import VirtBoard.Proofs.Launch.Order
import VirtBoard.Proofs.Launch.Leftovers
import VirtBoard.Proofs.Launch.DataFlow
import VirtBoard.Proofs.Launch.Tidiness
import VirtBoard.Proofs.Qemu.PluggedMemory
import VirtBoard.Proofs.Qemu.OptionNames
import VirtBoard.Proofs.Qemu.Settings
import VirtBoard.Proofs.Qemu.Wiring
import VirtBoard.Proofs.Shell.Words
import VirtBoard.Proofs.CommandLine.DryRun
import VirtBoard.Proofs.Launch.Drives
import VirtBoard.Proofs.Board.FlagGrammar
import VirtBoard.Proofs.Board.Spelling
import VirtBoard.Proofs.Board.Validity
import VirtBoard.Proofs.Qemu.Alternatives
import VirtBoard.Proofs.Qemu.CommandLineText
import VirtBoard.Proofs.Launch.OverlayLaunches
import VirtBoard.Proofs.DeviceTree.Recompilation
import VirtBoard.Proofs.Launch.Footprint
import VirtBoard.Proofs.Launch.MissingImages
import VirtBoard.Proofs.CommandLine.ExitCodes
import VirtBoard.Proofs.Qemu.Environments
import VirtBoard.Proofs.Board.Composition
import VirtBoard.Proofs.Qemu.Banners
import VirtBoard.Proofs.CommandLine.ReleaseQuery
import VirtBoard.Proofs.DeviceTree.Merging
import VirtBoard.Proofs.CommandLine.OwnOptions
import VirtBoard.Proofs.Json.Grammar
import VirtBoard.Proofs.Qemu.JsonForm
import VirtBoard.Proofs.Path.Extensions
import VirtBoard.Proofs.Qemu.Numbers
import VirtBoard.Proofs.Qemu.ValueLookup
