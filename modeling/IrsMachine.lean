import IrsMachine.Config.Groups
import IrsMachine.Container.RemovalRuns
import IrsMachine.Container.Rounds
import IrsMachine.Dictionary.Advance
import IrsMachine.Dictionary.Canonical
import IrsMachine.Dictionary.Retrieval
import IrsMachine.Dictionary.Sessions
import IrsMachine.Engine.Directories
import IrsMachine.Engine.Documents
import IrsMachine.Engine.KeyWords
import IrsMachine.Engine.LanguageFiles
import IrsMachine.Engine.Letters
import IrsMachine.FileSystem.Removal
import IrsMachine.Server.Lifetime
import IrsMachine.Server.Sequences
import IrsMachine.Server.Shutdown
import IrsMachine.Server.Starts
import IrsMachine.Server.Statuses
import IrsMachine.Storage.Allocations
import IrsMachine.Storage.Arithmetic
import IrsMachine.Storage.Buffers
import IrsMachine.Storage.Codec
import IrsMachine.Storage.Decoding
import IrsMachine.Storage.Failures
import IrsMachine.Storage.Frequencies
import IrsMachine.Storage.Index
import IrsMachine.Storage.Listings
import IrsMachine.Storage.Queries
import IrsMachine.Storage.Restart
import IrsMachine.Storage.SelfDelimiting
import IrsMachine.Storage.Significancy
import IrsMachine.Storage.Skipping
